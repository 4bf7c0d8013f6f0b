import LSMEngine.Common.Chains
import LSMEngine.Types
import Mathlib.Data.List.Lex
/-!
# Memtable — the skip list

`skiplist.SkipList`: nodes in a heap, each with a tower of pointers, one
for every level it takes part in. A pointer is the place of a node in
`nodes`, which only grows; no pointer is `nil`, and as a starting point
`none` is the head. A pointer read past the top of a tower is a panic in
the source and `nil` here; no search does so (`lt_tower_walk`).

`randomLevel` draws the level of a new node from a generator. It may draw
any level up to the maximum: the `n`-th node gets the level `levels n`.
-/

namespace LSMEngine.Memtable

/-- `skiplistMaxLevel`. -/
def skiplistMaxLevel : ℕ := 18

/-- What `randomLevel` can draw. -/
abbrev Level := { n : ℕ // 1 ≤ n ∧ n ≤ skiplistMaxLevel }

/-- `skiplistNode`. -/
structure Node where
  key : Bytes
  entry : Entry
  next : List (Option ℕ)
  deriving DecidableEq, Repr

/-- `SkipList`, without its generator. -/
structure SkipList where
  head : List (Option ℕ)
  nodes : List Node
  level : ℕ
  length : ℕ
  deriving DecidableEq, Repr

namespace SkipList

/-- `skiplist.New`. -/
def new : SkipList := ⟨List.replicate skiplistMaxLevel none, [], 1, 0⟩

/-- `x.next[i]`, of a node or of the head. -/
def next (s : SkipList) (i : ℕ) : Option ℕ → Option ℕ
  | none => s.head[i]?.join
  | some j => (s.nodes[j]?.bind fun node => node.next[i]?).join

/-- `x.next[i] = y`. -/
def setNext (s : SkipList) (i : ℕ) (x y : Option ℕ) : SkipList :=
  match x with
  | none => { s with head := s.head.set i y }
  | some j => { s with
      nodes := s.nodes.modify j fun node => { node with next := node.next.set i y } }

/-- The key of a node. -/
def keyOf (s : SkipList) (j : ℕ) : Bytes := (s.nodes[j]?.map Node.key).getD []

/-- The entry of a node. -/
def entryOf (s : SkipList) (j : ℕ) : Option Entry := s.nodes[j]?.map Node.entry

/-- The loop of `findPrev` over the levels below one: the node it ends
at, and the nodes it leaves each level at. -/
def findPrevLoop (s : SkipList) (key : Bytes) :
    ℕ → Option ℕ → List (Option ℕ) → Option ℕ × List (Option ℕ)
  | 0, x, update => (x, update)
  | i + 1, x, update =>
    let x := walk (s.next i) (fun j => s.keyOf j < key) s.nodes.length x
    s.findPrevLoop key i x (x :: update)

/-- `findPrev`. -/
def findPrev (s : SkipList) (key : Bytes) : Option ℕ × List (Option ℕ) :=
  s.findPrevLoop key s.level none []

/-- `Get`. -/
def get (s : SkipList) (key : Bytes) : Option Entry :=
  match s.next 0 (s.findPrev key).1 with
  | some j => if s.keyOf j = key then s.entryOf j else none
  | none => none

/-- The new node is linked in on one level. -/
def link (s : SkipList) (node : ℕ) (update : List (Option ℕ)) (i : ℕ) : SkipList :=
  let x := update[i]?.join
  (s.setNext i (some node) (s.next i x)).setNext i x (some node)

/-- The end of `Upsert`, for a key that is not there: a node of that
many levels. -/
def insert (s : SkipList) (entry : Entry) (lvl : ℕ) (update : List (Option ℕ)) : SkipList :=
  let update := update ++ List.replicate (lvl - s.level) none
  let s' : SkipList := { s with
    nodes := s.nodes ++ [⟨entry.key, entry, List.replicate lvl none⟩]
    level := max s.level lvl }
  let s' := (List.range lvl).foldl (fun t i => t.link s.nodes.length update i) s'
  { s' with length := s.length + 1 }

/-- `Upsert`: the entry that was replaced, if one was. -/
def upsert (levels : ℕ → Level) (s : SkipList) (entry : Entry) : Option Entry × SkipList :=
  let prev := s.findPrev entry.key
  match s.next 0 prev.1 with
  | some j =>
    if s.keyOf j = entry.key then
      (s.entryOf j, { s with nodes := s.nodes.modify j fun node => { node with entry := entry } })
    else (none, s.insert entry (levels s.nodes.length) prev.2)
  | none => (none, s.insert entry (levels s.nodes.length) prev.2)

/-- What an iterator yields that stands at `x`. -/
def iterFrom (s : SkipList) (x : Option ℕ) : List Entry :=
  (follow (s.next 0) s.nodes.length x).filterMap s.entryOf

end SkipList

end LSMEngine.Memtable
