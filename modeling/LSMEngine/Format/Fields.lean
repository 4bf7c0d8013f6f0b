import LSMEngine.Format.Model.Frame
/-!
# Format — fields

Reading a field of a buffer that was put together from fields: it stands
behind the lengths of the ones before it, and is given back modulo its
width.
-/

namespace LSMEngine.Format

theorem ok_bind {ε α β : Type} (a : α) (f : α → Except ε β) : (Except.ok a >>= f) = f a := rfl

theorem failIf_neg {c : Prop} [Decidable c] {f : Fault} (h : ¬ c) : failIf c f = .ok () := if_neg h

theorem toNat_ofNat_uint32 {n : ℕ} (h : n < 2 ^ 32) : (UInt32.ofNat n).toNat = n := by
  rw [UInt32.toNat_ofNat', Nat.mod_eq_of_lt h]

theorem sub_head {x : Bytes} {n : ℕ} (y : Bytes) (hx : x.length = n) :
    sub (x ++ y) 0 n = .ok x := by
  rw [sub, ← List.nil_append (x ++ y),
    slice_append (List.length_nil).symm (by rw [hx, Nat.zero_add])]

section Fields

variable {fs : List Bytes} {k i : ℕ}

theorem sub_field {f : Bytes} {j : ℕ} (hf : fs[k]? = some f)
    (hi : (fs.take k).flatten.length = i) (hj : i + f.length = j) :
    sub fs.flatten i j = .ok f := by
  rw [sub, slice_flatten hf hi hj]

theorem byteAt_field {b : UInt8} (hf : fs[k]? = some [b])
    (hi : (fs.take k).flatten.length = i) : byteAt fs.flatten i = .ok b := by
  rw [flatten_around hf, byteAt, List.getElem?_append_right hi.le, hi, Nat.sub_self]
  rfl

theorem uint16At_field {v : UInt16} (hf : fs[k]? = some (leBytes 2 v.toNat))
    (hi : (fs.take k).flatten.length = i) : uint16At fs.flatten i = .ok v := by
  rw [uint16At, sub_field hf hi (by rw [length_leBytes]), ok_bind, leNat_leBytes_of_lt v.toNat_lt,
    UInt16.ofNat_toNat]
  rfl

theorem uint32At_field {n : ℕ} (hf : fs[k]? = some (leBytes 4 n))
    (hi : (fs.take k).flatten.length = i) : uint32At fs.flatten i = .ok (UInt32.ofNat n) := by
  have h : UInt32.ofNat (leNat (leBytes 4 n)) = UInt32.ofNat n := by
    rw [leNat_leBytes, ← UInt32.toNat_inj, UInt32.toNat_ofNat', UInt32.toNat_ofNat']
    exact Nat.mod_mod _ _
  rw [uint32At, sub_field hf hi (by rw [length_leBytes]), ok_bind, h]
  rfl

theorem uint32At_value {v : UInt32} (hf : fs[k]? = some (leBytes 4 v.toNat))
    (hi : (fs.take k).flatten.length = i) : uint32At fs.flatten i = .ok v := by
  rw [uint32At_field hf hi, UInt32.ofNat_toNat]

theorem uint64At_field {v : UInt64} (hf : fs[k]? = some (leBytes 8 v.toNat))
    (hi : (fs.take k).flatten.length = i) : uint64At fs.flatten i = .ok v := by
  rw [uint64At, sub_field hf hi (by rw [length_leBytes]), ok_bind, leNat_leBytes_uint64,
    UInt64.ofNat_toNat]
  rfl

end Fields

end LSMEngine.Format
