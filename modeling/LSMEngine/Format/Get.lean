import LSMEngine.Format.Truncated
import LSMEngine.Tables.SSTable
/-!
# Format — the round trip of point lookups

Every entry of a table that `Flush` has written is found under its key,
and no other key is, whatever was looked up before (`get_flush`). The
keys have to be different, and every length has to fit its field.
-/

namespace LSMEngine.Format

/-! ## Runs of lookups -/

/-- A lookup in a table. -/
inductive Lookup
  | get (key : Bytes)
  | getViewContext (ctx : Option Fault) (key : Bytes)
  deriving DecidableEq, Repr

/-- The state a lookup leaves. -/
def Table.lookup (P : Platform) (t : Table) (s : State) : Lookup → State
  | .get key => ((t.reader.get P (fileSource t.file) key).exec s).2
  | .getViewContext ctx key => ((t.reader.getViewContext P (fileSource t.file) ctx key).exec s).2

/-- The state after some lookups. -/
def Table.after (P : Platform) (t : Table) (ls : List Lookup) : State :=
  ls.foldl (t.lookup P) t.state

/-- **Lookups leave a table in use**, if each of them finds its answer. -/
theorem live_after {P : Platform} {t : Table}
    (hco : Coherent P (fileSource t.file) t.reader)
    (hlive : Live P (fileSource t.file) t.reader t.state)
    (hlookup : ∀ k, ∃ v, Prog.Keeps (Sound P (fileSource t.file) t.reader)
      (t.reader.getViewContext P (fileSource t.file) none k) (· = .ok v)) (ls : List Lookup) :
    Live P (fileSource t.file) t.reader (t.after P ls) := by
  rw [Table.after]
  generalize t.state = s at hlive
  induction ls generalizing s with
  | nil => exact hlive
  | cons l ls ih =>
    refine ih _ ?_
    match l with
    | .get k =>
      obtain ⟨v, hv⟩ := hlookup k
      exact (get_live hco hv s hlive).2
    | .getViewContext none k =>
      obtain ⟨v, hv⟩ := hlookup k
      exact (getViewContext_live hco hv s hlive).2
    | .getViewContext (some f) k => exact hlive

/-! ## Entries by their keys -/

/-- Under different keys an entry is found by its key. -/
theorem find_key_eq_some_iff {es : List Entry} (hdistinct : (es.map Entry.key).Nodup) {k : Bytes}
    {e : Entry} : es.find? (fun d => d.key = k) = some e ↔ e ∈ es ∧ e.key = k := by
  constructor
  · intro h
    exact ⟨List.mem_of_find?_eq_some h, by simpa using List.find?_some h⟩
  · rintro ⟨he, rfl⟩
    have hsome : (es.find? fun d => d.key = e.key).isSome := by
      rw [List.find?_isSome]
      exact ⟨e, he, by simp⟩
    obtain ⟨d, hd⟩ := Option.isSome_iff_exists.mp hsome
    have hkey : d.key = e.key := by simpa using List.find?_some hd
    rw [hd, List.inj_on_of_nodup_map hdistinct (List.mem_of_find?_eq_some hd) he hkey]

theorem nodup_sortEntries {es : List Entry} (hdistinct : (es.map Entry.key).Nodup) :
    ((Tables.sortEntries es).map Entry.key).Nodup :=
  ((sortEntries_perm es).map _).nodup_iff.mpr hdistinct

theorem find_sortEntries {es : List Entry} (hdistinct : (es.map Entry.key).Nodup) (k : Bytes) :
    (Tables.sortEntries es).find? (fun e => e.key = k) = es.find? fun e => e.key = k := by
  ext e
  rw [find_key_eq_some_iff (nodup_sortEntries hdistinct), find_key_eq_some_iff hdistinct,
    (sortEntries_perm es).mem_iff]

theorem sortEntries_le (es : List Entry) :
    (Tables.sortEntries es).Pairwise fun a b => a.key ≤ b.key :=
  (List.pairwise_insertionSort Tables.EntryLe es).imp fun h => Tables.key_le_of_entryLe h

theorem sortEntries_lt {es : List Entry} (hdistinct : (es.map Entry.key).Nodup) :
    (Tables.sortEntries es).Pairwise fun a b => a.key < b.key :=
  ((sortEntries_le es).and (List.pairwise_map.mp (nodup_sortEntries hdistinct))).imp
    fun h => lt_of_le_of_ne h.1 h.2

/-! ## The round trip -/

section

variable {P : Platform} {raw : Options} {entries : List Entry}

/-- The file can be read back under its own options. -/
structure Restores (P : Platform) (raw : Options) (entries : List Entry) : Prop where
  fits : Fits P raw.normalize (blocksOf raw entries)
  readable : Readable P raw.normalize raw.normalize.readLimit (blocksOf raw entries)

/-- The parts of the file hold the entries in table order. -/
theorem entries_partsOf (raw : Options) (entries : List Entry) :
    (partsOf raw.normalize (blocksOf raw entries)).flatten.flatten.flatten =
      Tables.sortEntries entries := by
  rw [flatten_partsOf, flatten_blocksOf]

/-- **The table `Flush` returns** serves the entries in table order. -/
theorem flush_serves (hvalid : raw.normalize.validate = .ok ()) (hne : entries ≠ [])
    (hkeys : ∀ e ∈ entries, e.key ≠ []) (h : Restores P raw entries) :
    ∃ t, flush P raw entries = .ok t ∧
      Serves P (fileSource t.file) t.reader (partsOf raw.normalize (blocksOf raw entries)) ∧
      Live P (fileSource t.file) t.reader t.state := by
  obtain ⟨ws, c, f, hwritten, hf, hflush⟩ := flush_eq hvalid hne hkeys h.fits.opens
  refine ⟨_, hflush, ?_, sound_openedState _ _ _ _ _ _, rfl⟩
  refine hwritten.serves (laidOut_blocksOf hne) h.fits ?_ ?_ hf
  · rw [Options.readLimit_normalize]
    exact h.readable
  · rw [flatten_blocksOf]
    exact sortEntries_le entries

/-- A table that was just flushed has one length for every offset, and
empty caches. -/
theorem flush_coherent (hvalid : raw.normalize.validate = .ok ()) (hne : entries ≠ [])
    (hkeys : ∀ e ∈ entries, e.key ≠ []) (hfits : Fits P raw.normalize (blocksOf raw entries)) :
    ∃ t, flush P raw entries = .ok t ∧ Coherent P (fileSource t.file) t.reader ∧
      Sound P (fileSource t.file) t.reader t.state := by
  obtain ⟨ws, c, f, hwritten, -, hflush⟩ := flush_eq hvalid hne hkeys hfits.opens
  exact ⟨_, hflush, hwritten.coherent (laidOut_blocksOf hne) hfits f,
    sound_openedState _ _ _ _ _ _⟩

/-- The entries are found in the table, and nothing else is. -/
def Table.Answers (P : Platform) (t : Table) (entries : List Entry) : Prop :=
  ∀ ls k, ((t.reader.get P (fileSource t.file) k).exec (t.after P ls)).1 =
      .ok (entries.find? fun e => e.key = k) ∧
    ((t.reader.getViewContext P (fileSource t.file) none k).exec (t.after P ls)).1 =
      .ok ((entries.find? fun e => e.key = k).map Entry.view)

theorem answers_of_serves {t : Table} (hdistinct : (entries.map Entry.key).Nodup)
    (hserves : Serves P (fileSource t.file) t.reader (partsOf raw.normalize (blocksOf raw entries)))
    (hlive : Live P (fileSource t.file) t.reader t.state) : t.Answers P entries := by
  have hall := entries_partsOf raw entries
  have hlookup : ∀ k, Prog.Keeps (Sound P (fileSource t.file) t.reader)
      (t.reader.getViewContext P (fileSource t.file) none k)
      (· = .ok ((entries.find? fun e => e.key = k).map Entry.view)) := by
    intro k
    have h := getViewContext_served hserves (hall ▸ sortEntries_lt hdistinct) k
    rwa [hall, find_sortEntries hdistinct] at h
  intro ls k
  have hafter := live_after hserves.coherent hlive (fun k => ⟨_, hlookup k⟩) ls
  refine ⟨?_, (hlookup k _ hafter.1).1⟩
  rw [(get_live hserves.coherent (hlookup k) _ hafter).1, Option.map_map]
  exact congrArg Except.ok Option.map_id'

/-- **Point lookups round trip.** Every key finds its entry and every
other key nothing, without an error, whatever was looked up before. -/
theorem get_flush (hvalid : raw.normalize.validate = .ok ()) (hne : entries ≠ [])
    (hkeys : ∀ e ∈ entries, e.key ≠ []) (hdistinct : (entries.map Entry.key).Nodup)
    (hreadable : Readable P raw.normalize raw.normalize.readLimit (blocksOf raw entries))
    (hfits : Fits P raw.normalize (blocksOf raw entries)) :
    ∃ t, flush P raw entries = .ok t ∧ ∀ ls k,
      ((t.reader.get P (fileSource t.file) k).exec (t.after P ls)).1 =
          .ok (entries.find? fun e => e.key = k) ∧
        ((t.reader.getViewContext P (fileSource t.file) none k).exec (t.after P ls)).1 =
          .ok ((entries.find? fun e => e.key = k).map Entry.view) := by
  obtain ⟨t, hflush, hserves, hlive⟩ := flush_serves hvalid hne hkeys ⟨hfits, hreadable⟩
  exact ⟨t, hflush, answers_of_serves hdistinct hserves hlive⟩

/-- Lookups through a split index and split filters. -/
theorem get_flush_parted :
    ∃ t, flush .plain .parted fewEntries = .ok t ∧ t.Answers .plain fewEntries :=
  get_flush rfl (by decide) (by decide) (by decide) (fun _ => by decide +kernel)
    ⟨fun _ _ => ⟨_, _, rfl⟩, by decide +kernel, by decide +kernel, by decide +kernel, rfl⟩

/-- The block of a broken table is an error, for a lookup and for a
scan. -/
theorem readBlockEntry_broken {t : Table} {i : IndexEntry} (h : Broken t i) :
    (t.reader.readBlockEntry .plain (fileSource t.file) i).exec t.state =
      (.error .badBlock, t.state) := by
  rw [Reader.readBlockEntry, h.valid, Prog.exec_bind_ok (Prog.exec_lift _ _), fetchBlock,
    Prog.exec_mk, h.read, h.state]
  rfl

/-- The block that cannot be read is an error for the pipeline. -/
theorem pipelineGet_broken {t : Table} {i : IndexEntry} (h : Broken t i) :
    (t.reader.pipelineGet .plain (fileSource t.file) [1]).exec t.state =
      (.error .badBlock, t.state) := by
  have hmay : (t.reader.mayContain .plain (fileSource t.file) [1]).exec t.state =
      (.ok true, t.state) := by
    rw [Reader.mayContain, if_neg (by rw [h.filterPartitioned]; decide), h.filter]
    rfl
  have hfind : (t.reader.find .plain (fileSource t.file) [1]).exec t.state =
      (.ok (some i), t.state) := by
    have hblock : findBlock [i] [1] = some 0 := by
      rw [findBlock, List.map_singleton, h.key]
      decide
    have hpart : ¬ t.reader.partitioned = true := by
      rw [h.partitioned]
      decide
    rw [Reader.find, h.top, hblock]
    dsimp only
    rw [show entryAt [i] 0 = .ok i from rfl, Prog.exec_bind_ok (Prog.exec_lift _ _), if_neg hpart]
    rfl
  rw [Reader.pipelineGet, Prog.exec_bind_ok hmay, if_pos rfl, Prog.exec_bind_ok hfind,
    Prog.exec_bind_error (readBlockEntry_broken h)]

theorem readable_longEntry : Readable .plain Options.wide.normalize
    Options.wide.normalize.readLimit (blocksOf .wide [longEntry (2 ^ 32)]) := by
  intro _ b hb
  rw [blocksOf_singleton] at hb
  rw [List.mem_singleton.mp hb, length_encodedBlock_longEntry]
  decide

/-- **A block of four gibibytes** is lost: the reader would accept it,
but the index counts only 44 bytes of it. -/
theorem get_longEntry :
    Options.wide.normalize.validate = .ok () ∧
      Readable .plain Options.wide.normalize Options.wide.normalize.readLimit
        (blocksOf .wide [longEntry (2 ^ 32)]) ∧
      ∃ t, flush .plain .wide [longEntry (2 ^ 32)] = .ok t ∧
        ((t.reader.get .plain (fileSource t.file) (longEntry (2 ^ 32)).key).exec t.state).1 =
          .ok none := by
  refine ⟨rfl, readable_longEntry, ?_⟩
  obtain ⟨t, i, hflush, h⟩ := flush_longEntry rfl
  refine ⟨t, hflush, ?_⟩
  have hview : (t.reader.getView .plain (fileSource t.file) [1]).exec t.state =
      (.ok none, t.state) := by
    rw [Reader.getView, Prog.exec_mk, h.inside, pipelineGet_broken h, h.policy, h.state]
    rfl
  show ((t.reader.get .plain (fileSource t.file) [1]).exec t.state).1 = _
  rw [Reader.get, Prog.exec_bind_ok hview]
  rfl

end

end LSMEngine.Format
