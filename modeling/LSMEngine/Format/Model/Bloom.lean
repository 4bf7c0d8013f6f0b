import LSMEngine.Format.Model.Options
/-!
# Format — Bloom filters

`sstable/bloom`: a bit array, and a number of probes for each key that
two halves of one FNV hash determine. The probes are reduced modulo the
length of the array in bits as a 32-bit number, so an array whose length
in bits is a multiple of `2 ^ 32` divides by zero.
-/

namespace LSMEngine.Format

/-- `Filter`. -/
structure Filter where
  bits : Bytes
  k : UInt8
  deriving DecidableEq, Repr

/-- FNV-1a in 64 bits. -/
def fnv64a (key : Bytes) : UInt64 :=
  key.foldl (fun h b => (h ^^^ b.toUInt64) * 0x100000001b3) 0xcbf29ce484222325

/-- `hashKey`. -/
def hashKey (key : Bytes) : UInt64 × UInt64 :=
  let sum := fnv64a key
  let h2 := sum ^^^ (sum >>> 33) ^^^ (sum <<< 11)
  (sum, if h2 = 0 then 0x157c4a7fb979379e else h2)

/-- The bytes of the bit array of `NewFilter`, before they are made. -/
def filterByteLen (keys bitsPerKey : ℤ) : ℤ :=
  let m := int64 (keys * bitsPerKey)
  let m := if m < 64 then 64 else m
  (int64 (m + 7)).tdiv 8

/-- The number of probes `NewFilter` settles on. -/
def filterProbes (bitsPerKey : ℤ) : UInt8 :=
  let k := truncate (float64 (float64 bitsPerKey * float64 (69 / 100)))
  let k := if k < 1 then 1 else k
  let k := if 30 < k then 30 else k
  UInt8.ofNat k.toNat

/-- `NewFilter`: `none` is no filter. -/
def newFilter (keys bitsPerKey : ℤ) : Except Fault (Option Filter) :=
  if keys ≤ 0 ∨ bitsPerKey ≤ 0 then .ok none
  else if canMake 1 (filterByteLen keys bitsPerKey) then
    .ok (some ⟨List.replicate (filterByteLen keys bitsPerKey).toNat 0, filterProbes bitsPerKey⟩)
  else .error .panic

namespace Filter

/-- `uint32(len(b.bits) * 8)`. -/
def bitLen (f : Filter) : UInt32 := UInt32.ofNat (f.bits.length * 8)

/-- The bit of the `i`th probe. -/
def probe (f : Filter) (key : Bytes) (i : ℕ) : Except Fault ℕ :=
  if f.bitLen = 0 then .error .panic
  else
    .ok (((hashKey key).1 + UInt64.ofNat i * (hashKey key).2) % f.bitLen.toUInt64).toNat

/-- `b.bits[bit/8]`. -/
def byteOf (f : Filter) (bit : ℕ) : Except Fault UInt8 := byteAt f.bits (bit / 8)

/-- `1 << (bit % 8)`. -/
def mask (bit : ℕ) : UInt8 := 1 <<< UInt8.ofNat (bit % 8)

/-- The loop of `Add` over the probes. -/
def addLoop (f : Filter) (key : Bytes) : List ℕ → Except Fault Filter
  | [] => .ok f
  | i :: is => do
    let bit ← f.probe key i
    let byte ← f.byteOf bit
    addLoop { f with bits := f.bits.set (bit / 8) (byte ||| mask bit) } key is

/-- `Add`. -/
def add (f : Filter) (key : Bytes) : Except Fault Filter := f.addLoop key (List.range f.k.toNat)

/-- `Add` of several keys. -/
def addAll (f : Filter) : List Bytes → Except Fault Filter
  | [] => .ok f
  | key :: keys => do (← f.add key).addAll keys

/-- The loop of `MayContain`. -/
def mayContainLoop (f : Filter) (key : Bytes) : List ℕ → Except Fault Bool
  | [] => .ok true
  | i :: is => do
    let bit ← f.probe key i
    let byte ← f.byteOf bit
    if byte &&& mask bit = 0 then return false
    else f.mayContainLoop key is

/-- `MayContain`. -/
def mayContain (f : Filter) (key : Bytes) : Except Fault Bool :=
  f.mayContainLoop key (List.range f.k.toNat)

/-- `Encode`. -/
def encode (f : Filter) : Bytes := f.k :: f.bits

end Filter

/-- `bloom.Decode`. -/
def decodeFilter (data : Bytes) : Option Filter :=
  match data with
  | k :: b :: bits => some ⟨b :: bits, k⟩
  | _ => none

end LSMEngine.Format
