import LSMEngine.Control.Model.Apply
/-!
# Control plane — names

The ids of shards and operations are trimmed of spaces. Trimming twice is
trimming once (`trimSpace_trimSpace`), and what a split appends to the id
of a shard leaves it trimmed. The ids `uniqueShardID` finds are new: of
the numbered ids it tries, one more than there are shards, some is not
taken (`uniqueShardID_not_mem`).
-/

namespace LSMEngine.Control

variable {ρ : Type} {s t base : String} {shards : Shards ρ}

/-! ## Trimming -/

/-- A first part of a list without leading spaces has none. -/
theorem dropWhile_of_isPrefix {α : Type*} {p : α → Bool} {l m : List α} (hm : m.dropWhile p = m)
    (h : l <+: m) : l.dropWhile p = l := by
  obtain ⟨r, rfl⟩ := h
  rw [List.dropWhile_eq_self_iff] at hm ⊢
  intro hl
  have := hm (by rw [List.length_append]; omega)
  rwa [List.getElem_append_left hl] at this

/-- **A string is trimmed** if no space is at either end. -/
theorem trimSpace_eq_self_iff :
    trimSpace s = s ↔
      s.toList.dropWhile isSpace = s.toList ∧ s.toList.rdropWhile isSpace = s.toList := by
  constructor
  · intro h
    have hs : (s.toList.dropWhile isSpace).rdropWhile isSpace = s.toList := by
      conv_rhs => rw [← h]
      rw [trimSpace, String.toList_ofList]
    have hleft : s.toList.dropWhile isSpace = s.toList := by
      refine dropWhile_of_isPrefix (m := s.toList.dropWhile isSpace)
        (List.dropWhile_idempotent _ _) ?_
      conv_lhs => rw [← hs]
      exact List.rdropWhile_prefix _ _
    refine ⟨hleft, ?_⟩
    rw [hleft] at hs
    exact hs
  · rintro ⟨hl, hr⟩
    rw [trimSpace, hl, hr, String.ofList_toList]

/-- **Trimming twice is trimming once.** -/
theorem trimSpace_trimSpace (s : String) : trimSpace (trimSpace s) = trimSpace s := by
  rw [trimSpace_eq_self_iff, trimSpace, String.toList_ofList]
  refine ⟨?_, List.rdropWhile_idempotent _ _⟩
  exact dropWhile_of_isPrefix (List.dropWhile_idempotent _ _) (List.rdropWhile_prefix _ _)

/-- A trimmed name stays trimmed if something is appended that does not
end in a space. -/
theorem trimSpace_append {c : Char} (hs : trimSpace s = s) (hne : s ≠ "")
    (hlast : t.toList.getLast? = some c) (hc : isSpace c = false) : trimSpace (s ++ t) = s ++ t := by
  rw [trimSpace_eq_self_iff] at hs ⊢
  have hnil : s.toList ≠ [] := fun h => hne (String.toList_inj.mp (by rw [h]; rfl))
  rw [String.toList_append]
  constructor
  · have hlen : 0 < s.toList.length := List.length_pos_of_ne_nil hnil
    rw [List.dropWhile_eq_self_iff]
    intro _
    rw [List.getElem_append_left hlen]
    exact List.dropWhile_eq_self_iff.mp hs.1 hlen
  · rw [List.rdropWhile_eq_self_iff]
    intro hl
    have hl' : (s.toList ++ t.toList).getLast? = some c := by
      rw [List.getLast?_append, hlast]
      rfl
    rw [List.getLast?_eq_some_getLast hl] at hl'
    rw [Option.some.inj hl', hc]
    exact Bool.false_ne_true

/-! ## New ids -/

namespace ControlPlane

theorem isSpace_of_isDigit {c : Char} (h : c.isDigit = true) : isSpace c = false := by
  have hc : 48 ≤ c.toNat ∧ c.toNat ≤ 57 := by
    simpa [Char.isDigit, UInt32.le_iff_toNat_le] using h
  simp only [isSpace, Bool.or_eq_false_iff, Bool.and_eq_false_iff, decide_eq_false_iff_not]
  omega

theorem toList_toString (n : ℕ) : (toString n).toList = Nat.toDigits 10 n := by
  rw [show toString n = Nat.repr n from rfl, Nat.repr_eq_ofList_toDigits, String.toList_ofList]

/-- Different numbers make different ids. -/
theorem candidate_injective (base : String) : Function.Injective (candidate base) := by
  intro i j h
  have hl := congrArg String.toList h
  simp only [candidate, String.toList_append, List.append_cancel_left_eq, toList_toString] at hl
  rw [← Nat.ofDigitChars_ten_toDigits (n := i), hl, Nat.ofDigitChars_ten_toDigits]

/-- A numbered id of a trimmed name is trimmed. -/
theorem trimSpace_candidate (hb : trimSpace base = base) (hne : base ≠ "") (i : ℕ) :
    trimSpace (candidate base i) = candidate base i := by
  have hdash : trimSpace (base ++ "-") = base ++ "-" :=
    trimSpace_append (c := '-') hb hne rfl (by decide)
  have hne' : base ++ "-" ≠ "" := by
    intro h
    have := congrArg String.toList h
    rw [String.toList_append] at this
    simp at this
  have hlast : (toString i).toList.getLast? =
      some ((Nat.toDigits 10 i).getLast Nat.toDigits_ne_nil) := by
    rw [toList_toString, List.getLast?_eq_some_getLast]
  exact trimSpace_append hdash hne' hlast
    (isSpace_of_isDigit (Nat.isDigit_of_mem_toDigits (by decide) (by decide) (List.getLast_mem _)))

/-- If the loop ends at an id that is taken, so are all it has tried. -/
theorem mem_of_uniqueShardIDLoop_mem {fuel i : ℕ}
    (h : uniqueShardIDLoop shards base fuel i ∈ shards) :
    ∀ j ≤ fuel, candidate base (i + j) ∈ shards := by
  induction fuel generalizing i with
  | zero =>
    intro j hj
    obtain rfl : j = 0 := by omega
    exact h
  | succ fuel ih =>
    rw [uniqueShardIDLoop] at h
    split at h
    · next htaken =>
      intro j hj
      rcases Nat.eq_zero_or_pos j with rfl | hpos
      · exact htaken
      · have := ih h (j - 1) (by omega)
        rwa [show i + 1 + (j - 1) = i + j by omega] at this
    · next hfree => exact absurd h hfree

/-- **The id of a new shard is new.** -/
theorem uniqueShardID_not_mem (shards : Shards ρ) (base : String) :
    uniqueShardID shards base ∉ shards := by
  rw [uniqueShardID]
  split
  · intro hmem
    have htaken := mem_of_uniqueShardIDLoop_mem hmem
    -- one more id than there are shards
    have hnodup : ((List.range (shards.keys.length + 1)).map fun j => candidate base (2 + j)).Nodup :=
      List.nodup_range.map fun i j h => Nat.add_left_cancel (candidate_injective base h)
    have hsub : ((List.range (shards.keys.length + 1)).map fun j => candidate base (2 + j)) ⊆
        shards.keys := by
      intro id hid
      obtain ⟨j, hj, rfl⟩ := List.mem_map.mp hid
      exact AList.mem_keys.mp (htaken j (Nat.lt_succ_iff.mp (List.mem_range.mp hj)))
    have hle := (List.subperm_of_subset hnodup hsub).length_le
    rw [List.length_map, List.length_range] at hle
    omega
  · next hfree => exact hfree

theorem uniqueShardIDLoop_eq (shards : Shards ρ) (base : String) (fuel i : ℕ) :
    ∃ j, uniqueShardIDLoop shards base fuel i = candidate base j := by
  induction fuel generalizing i with
  | zero => exact ⟨i, rfl⟩
  | succ fuel ih =>
    rw [uniqueShardIDLoop]
    split
    · exact ih (i + 1)
    · exact ⟨i, rfl⟩

/-- It is the name, or the name with a number. -/
theorem uniqueShardID_eq (shards : Shards ρ) (base : String) :
    uniqueShardID shards base = base ∨ ∃ j, uniqueShardID shards base = candidate base j := by
  rw [uniqueShardID]
  split
  · exact Or.inr (uniqueShardIDLoop_eq shards base _ 2)
  · exact Or.inl rfl

theorem trimSpace_uniqueShardID (hb : trimSpace base = base) (hne : base ≠ "") :
    trimSpace (uniqueShardID shards base) = uniqueShardID shards base := by
  rcases uniqueShardID_eq shards base with h | ⟨j, h⟩
  · rw [h, hb]
  · rw [h, trimSpace_candidate hb hne]

theorem toList_uniqueShardID (shards : Shards ρ) (base : String) :
    base.toList <+: (uniqueShardID shards base).toList := by
  rcases uniqueShardID_eq shards base with h | ⟨j, h⟩
  · exact ⟨[], by simp [h]⟩
  · rw [h, candidate, String.toList_append, String.toList_append, List.append_assoc]
    exact List.prefix_append _ _

/-! ## The halves of a shard -/

variable {id : String}

/-- The two halves have different ids. -/
theorem uniqueShardID_ne (shards : Shards ρ) (id : String) :
    uniqueShardID shards (id ++ "-a") ≠ uniqueShardID shards (id ++ "-b") := by
  intro h
  have ha := toList_uniqueShardID shards (id ++ "-a")
  have hb := toList_uniqueShardID shards (id ++ "-b")
  rw [h] at ha
  have hlen : (id ++ "-a").toList.length = (id ++ "-b").toList.length := by
    simp [String.toList_append]
  have heq := (List.prefix_of_prefix_length_le ha hb hlen.le).eq_of_length hlen
  simp [String.toList_append] at heq

/-- The id of a half is trimmed. -/
theorem trimSpace_half {suffix : String} {c : Char} (hid : trimSpace id = id) (hne : id ≠ "")
    (hlast : suffix.toList.getLast? = some c) (hc : isSpace c = false) :
    trimSpace (uniqueShardID shards (id ++ suffix)) = uniqueShardID shards (id ++ suffix) := by
  refine trimSpace_uniqueShardID (trimSpace_append hid hne hlast hc) fun h => hne ?_
  have := congrArg String.toList h
  rw [String.toList_append] at this
  exact String.toList_inj.mp (List.append_eq_nil_iff.mp this).1

end ControlPlane

end LSMEngine.Control
