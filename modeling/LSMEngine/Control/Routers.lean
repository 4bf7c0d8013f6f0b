import LSMEngine.Control.Layout
import LSMEngine.Control.Model.Routing
/-!
# Control plane — all routers agree

The routes that `buildShardRoutes` accepts are laid out, so that the
search by the ends of the ranges finds the first route that holds the key
(`shardForKey_eq_find`), which is what the scans look for.

But `buildShardRoutes` trims the ids of the order, and `Shards` does not:
an order with blanks around an id, which a checkpoint may have, gives the
scans a shard without a name that holds every key (`untrimmed_disagrees`).
So the routers agree exactly if the ids are trimmed up to the one of the
shard that holds the key, and this shard has a leader (`routers_agree`).
-/

namespace LSMEngine.Control

variable {H ρ : Type} {S : ReplicaStore H ρ} {c : ControlPlane H ρ} {key : Bytes}
  {raftLeader : Option String}

/-! ## The scans -/

theorem findRouteShardByKey_eq (key : Bytes) (shards : List ListedShard) :
    findRouteShardByKey key shards =
      shards.find? fun s => keyInRange key s.shard.startKey s.shard.endKey := by
  induction shards with
  | nil => rfl
  | cons s shards ih =>
    rw [findRouteShardByKey, List.find?_cons, keyInRange, ih]
    split_ifs <;> rfl

/-- The gateway scans as the server does, and takes the leader. -/
theorem lookupLeader_eq (key : Bytes) (shards : List ListedShard) :
    lookupLeader key (shards.map ListedShard.cached) =
      ((findRouteShardByKey key shards).map ListedShard.effectiveWriteLeader).filter (· ≠ "") := by
  induction shards with
  | nil => rfl
  | cons s shards ih =>
    rw [List.map_cons, lookupLeader, findRouteShardByKey, ih]
    by_cases hstart : s.cached.start ≠ [] ∧ key < s.cached.start
    · rw [if_pos hstart, if_pos (c := s.shard.startKey ≠ [] ∧ key < s.shard.startKey) hstart]
    rw [if_neg hstart, if_neg (c := s.shard.startKey ≠ [] ∧ key < s.shard.startKey) hstart]
    by_cases hstop : s.cached.stop ≠ [] ∧ ¬key < s.cached.stop
    · rw [if_pos hstop, if_pos (c := s.shard.endKey ≠ [] ∧ ¬key < s.shard.endKey) hstop]
    rw [if_neg hstop, if_neg (c := s.shard.endKey ≠ [] ∧ ¬key < s.shard.endKey) hstop,
      Option.map_some, Option.filter_some]
    by_cases hleader : s.effectiveWriteLeader = ""
    · rw [if_pos (c := s.cached.leader = "") hleader, if_neg (by simpa using hleader)]
    · rw [if_neg (c := s.cached.leader = "") hleader, if_pos (decide_eq_true hleader)]
      rfl

/-- **The three routers agree** on a key: the server's scan finds what the
search finds, and the gateway's scan the leader of that. -/
def RoutersAgree (S : ReplicaStore H ρ) (c : ControlPlane H ρ) (raftLeader : Option String)
    (key : Bytes) : Prop :=
  (findRouteShardByKey key (c.shardsSnapshot S raftLeader)).map ListedShard.shard =
      (c.shardForKey key).map (ShardStatus.read S c.heap) ∧
    lookupLeader key ((c.shardsSnapshot S raftLeader).map ListedShard.cached) =
      (findRouteShardByKey key (c.shardsSnapshot S raftLeader)).map
        ListedShard.effectiveWriteLeader

/-- The place of the route that holds the key; the end if none does. -/
def ControlPlane.ownerIdx (c : ControlPlane H ρ) (key : Bytes) : ℕ :=
  c.routes.findIdx fun r => keyInRange key r.start r.stop

/-- The range of the shard that is listed for an id holds the key. -/
def ControlPlane.listsKey (S : ReplicaStore H ρ) (c : ControlPlane H ρ) (key : Bytes)
    (id : String) : Bool :=
  keyInRange key (c.shardSnapshot S id).startKey (c.shardSnapshot S id).endKey

/-- **A scan of the order** finds the id of the first route that holds the
key if no untrimmed id comes before, and an untrimmed id otherwise. -/
theorem find_order {order : List String} {routes : List ShardRoute} {holds : String → Bool}
    {owns : ShardRoute → Bool} (hids : routes.map ShardRoute.id = order.map trimSpace)
    (htrimmed : ∀ r ∈ routes, holds r.id = owns r)
    (huntrimmed : ∀ id ∈ order, trimSpace id ≠ id → holds id = true) :
    (∀ id ∈ order.take (routes.findIdx owns + 1), trimSpace id = id) ∧
        order.find? holds = (routes.find? owns).map ShardRoute.id ∨
      (¬∀ id ∈ order.take (routes.findIdx owns + 1), trimSpace id = id) ∧
        ∃ id, order.find? holds = some id ∧ trimSpace id ≠ id := by
  induction order generalizing routes with
  | nil =>
    obtain rfl := List.map_eq_nil_iff.mp hids
    exact Or.inl ⟨nofun, rfl⟩
  | cons id order ih =>
    obtain ⟨r, routes, rfl, hid, hrest⟩ := List.map_eq_cons_iff.mp hids
    rw [List.take_succ_cons, List.forall_mem_cons, List.find?_cons, List.find?_cons,
      List.findIdx_cons]
    by_cases htrim : trimSpace id = id
    swap
    · rw [huntrimmed id List.mem_cons_self htrim]
      exact Or.inr ⟨fun h => htrim h.1, id, rfl, htrim⟩
    obtain rfl : r.id = id := hid.trans htrim
    rw [htrimmed r List.mem_cons_self]
    cases howns : owns r with
    | true => exact Or.inl ⟨⟨htrim, nofun⟩, rfl⟩
    | false =>
      simp only [htrim, true_and]
      exact ih hrest (fun r hr => htrimmed r (List.mem_cons_of_mem _ hr))
        fun id hid => huntrimmed id (List.mem_cons_of_mem _ hid)

/-- **What the server's scan finds**: with trimmed ids up to the owner of
the key what the search finds, and a shard without a name otherwise. -/
theorem findRouteShardByKey_snapshot (h : buildShardRoutes c.order c.shards = .ok c.routes)
    (raftLeader : Option String) (key : Bytes) :
    (∀ id ∈ c.order.take (c.ownerIdx key + 1), trimSpace id = id) ∧
        (findRouteShardByKey key (c.shardsSnapshot S raftLeader)).map ListedShard.shard =
          (c.shardForKey key).map (ShardStatus.read S c.heap) ∨
      (¬∀ id ∈ c.order.take (c.ownerIdx key + 1), trimSpace id = id) ∧
        (findRouteShardByKey key (c.shardsSnapshot S raftLeader)).map ListedShard.shard =
          some ⟨"", [], [], "", []⟩ := by
  have hr := (routed_of_build h).2
  have hread : ∀ r ∈ c.routes, ∃ shard, c.shards.lookup r.id = some shard ∧
      c.shardSnapshot S r.id = shard.read S c.heap ∧ r.start = shard.startKey ∧
        r.stop = shard.endKey := by
    intro r hmem
    obtain ⟨shard, hs, hbounds⟩ := hr.found r hmem
    refine ⟨shard, hs, ?_, hbounds⟩
    rw [ControlPlane.shardSnapshot, hs]
  have hzero : ∀ id, trimSpace id ≠ id → c.shardSnapshot S id = ⟨"", [], [], "", []⟩ := by
    intro id htrim
    rw [ControlPlane.shardSnapshot]
    rcases hs : c.shards.lookup id with _ | shard
    · rfl
    -- the ids of the shards are trimmed
    have hmem := (perm_of_build h).mem_iff.mpr
      (AList.mem_keys.mp (AList.lookup_isSome.mp (by rw [hs]; rfl)))
    obtain ⟨id', -, rfl⟩ := List.mem_map.mp hmem
    exact absurd (trimSpace_trimSpace id') htrim
  have hscan : (findRouteShardByKey key (c.shardsSnapshot S raftLeader)).map ListedShard.shard =
      (c.order.find? (c.listsKey S key)).map (c.shardSnapshot S) := by
    rw [findRouteShardByKey_eq, ControlPlane.shardsSnapshot, List.find?_map, Option.map_map]
    rfl
  have htrimmed : ∀ r ∈ c.routes, c.listsKey S key r.id = keyInRange key r.start r.stop := by
    intro r hmem
    obtain ⟨shard, -, hsnapshot, hstart, hstop⟩ := hread r hmem
    rw [ControlPlane.listsKey, hsnapshot, hstart, hstop]
    rfl
  have huntrimmed : ∀ id ∈ c.order, trimSpace id ≠ id → c.listsKey S key id = true := by
    intro id _ htrim
    rw [ControlPlane.listsKey, hzero id htrim]
    rfl
  rw [hscan, shardForKey_eq_find hr]
  refine (find_order hr.ids htrimmed huntrimmed).imp (And.imp_right fun hfind => ?_)
    (And.imp_right fun hfind => ?_)
  · rw [hfind, Option.map_map]
    rcases howner : c.routes.find? fun r => keyInRange key r.start r.stop with _ | r
    · rw [howner]
      rfl
    · obtain ⟨shard, hs, hsnapshot, -⟩ := hread r (List.mem_of_find?_eq_some howner)
      rw [howner, Option.bind_some, hs]
      exact congrArg some hsnapshot
  · obtain ⟨id, hfind, htrim⟩ := hfind
    rw [hfind, Option.map_some, hzero id htrim]

/-- **All key routers agree.** In every layout that `buildShardRoutes`
accepts, with the shards under their ids, the search and the two scans
select the same shard for a key, or none, exactly if the ids of the order
are trimmed up to the one of the shard (all of them if there is none), and
the shard has a leader to write to. -/
theorem routers_agree (h : buildShardRoutes c.order c.shards = .ok c.routes)
    (hnamed : ∀ id shard, c.shards.lookup id = some shard → shard.id = id)
    (raftLeader : Option String) (key : Bytes) :
    RoutersAgree S c raftLeader key ↔
      (∀ id ∈ c.order.take (c.ownerIdx key + 1), trimSpace id = id) ∧
        ∀ shard, c.shardForKey key = some shard → raftLeader.getD shard.leader ≠ "" := by
  rcases findRouteShardByKey_snapshot (S := S) h raftLeader key with
    ⟨htrim, hfind⟩ | ⟨huntrimmed, hfind⟩
  swap
  · -- the search finds no shard without a name
    refine iff_of_false (fun hagree => ?_) fun hcond => huntrimmed hcond.1
    obtain ⟨shard, hshard, hread⟩ := Option.map_eq_some_iff.mp (hagree.1.symm.trans hfind)
    have hr := (routed_of_build h).2
    rw [shardForKey_eq_find hr] at hshard
    obtain ⟨r, hfound, hs⟩ := Option.bind_eq_some_iff.mp hshard
    refine hr.named r (List.mem_of_find?_eq_some hfound) ?_
    rw [← hnamed _ _ hs]
    exact congrArg ShardStatus.id hread
  rw [and_iff_right htrim]
  have hleader : ∀ s, findRouteShardByKey key (c.shardsSnapshot S raftLeader) = some s →
      ∃ shard, c.shardForKey key = some shard ∧
        s.effectiveWriteLeader = raftLeader.getD shard.leader := by
    intro s hs
    rw [hs, Option.map_some] at hfind
    obtain ⟨shard, hshard, hread⟩ := Option.map_eq_some_iff.mp hfind.symm
    refine ⟨shard, hshard, ?_⟩
    have hover : s.writeLeader = raftLeader := by
      rw [findRouteShardByKey_eq] at hs
      obtain ⟨id, -, rfl⟩ := List.mem_map.mp (List.mem_of_find?_eq_some hs)
      rfl
    rw [ListedShard.effectiveWriteLeader, hover, ← hread]
    rfl
  rw [RoutersAgree, lookupLeader_eq]
  refine ⟨fun hagree shard hshard => ?_, fun hled => ⟨hfind, ?_⟩⟩
  · rcases hs : findRouteShardByKey key (c.shardsSnapshot S raftLeader) with _ | s
    · rw [hs, hshard] at hfind
      cases hfind
    · obtain ⟨shard', hshard', hsame⟩ := hleader s hs
      rw [← Option.some.inj (hshard.symm.trans hshard')] at hsame
      have hkept := hagree.2
      rw [hs, Option.map_some, Option.filter_eq_some_iff] at hkept
      rw [← hsame]
      exact of_decide_eq_true hkept.2
  · rcases hs : findRouteShardByKey key (c.shardsSnapshot S raftLeader) with _ | s
    · rfl
    · obtain ⟨shard, hshard, hsame⟩ := hleader s hs
      rw [Option.map_some, Option.filter_some, if_pos]
      rw [hsame]
      exact decide_eq_true (hled shard hshard)

/-- Two shards with a gap between them: the key 5, where the first one
ends, has no shard, and the key 8, where the second one starts, has that. -/
theorem routers_agree_gap :
    ∃ c, ControlPlane.bootstrap values "n1" "c"
        [⟨"a", [], [5], ["n1"], "n1"⟩, ⟨"b", [8], [], ["n2"], "n2"⟩] = .ok c ∧
      c.shardForKey [5] = none ∧ RoutersAgree values c none [5] ∧
      (c.shardForKey [8]).map ShardStatus.id = some "b" ∧ RoutersAgree values c none [8] := by
  have h : (ControlPlane.bootstrap values "n1" "c"
      [⟨"a", [], [5], ["n1"], "n1"⟩, ⟨"b", [8], [], ["n2"], "n2"⟩]).map (fun c =>
      (decide (c.order = ["a", "b"]), c.shardForKey [5],
        (c.shardForKey [8]).map fun shard => (shard.id, shard.leader))) =
      .ok (true, none, some ("b", "n2")) := by
    decide +kernel
  obtain ⟨c, hc, hrest⟩ := map_eq_ok h
  obtain ⟨horder, hrest⟩ := Prod.mk.inj hrest
  obtain ⟨hgap, hboundary⟩ := Prod.mk.inj hrest
  obtain ⟨shard, hshard, hb⟩ := Option.map_eq_some_iff.mp hboundary
  obtain ⟨hid, hleader⟩ := Prod.mk.inj hb
  have hl := (bootstrap_inOrder hc).1
  have htrim : ∀ key, ∀ id ∈ c.order.take (c.ownerIdx key + 1), trimSpace id = id :=
    fun key id hmem => hl.trimmed id (List.mem_of_mem_take hmem)
  refine ⟨c, hc, hgap, (routers_agree hl.routes hl.named none [5]).mpr ⟨htrim _, ?_⟩,
    by rw [hshard, Option.map_some, hid], (routers_agree hl.routes hl.named none [8]).mpr
      ⟨htrim _, ?_⟩⟩
  · rw [hgap]
    exact nofun
  · rintro shard' hshard'
    rw [← Option.some.inj (hshard.symm.trans hshard'), Option.getD_none, hleader]
    decide

/-- **A blank in the order.** A checkpoint whose order has an id with a
blank is loaded. Its only shard holds the keys from 5 on: the search finds
none for the key 1, and the scan of the server finds a shard without a
name. And a shard without a leader is none to the gateway. -/
theorem untrimmed_disagrees :
    (ControlPlane.load values "n1" "c"
        ⟨0, "n1", "c", false, 0, [" a"], [⟨"a", [5], [], "n1", []⟩], [], []⟩).map (fun c =>
      ((c.shardForKey [1]).map ShardStatus.id,
        (findRouteShardByKey [1] (c.shardsSnapshot values none)).map fun s => s.shard.id)) =
      .ok (none, some "") ∧
    (ControlPlane.bootstrap values "n1" "c" []).map (fun c =>
      ((c.shardForKey [1]).map ShardStatus.id,
        lookupLeader [1] ((c.shardsSnapshot values (some "")).map ListedShard.cached))) =
      .ok (some "default", none) := by
  decide +kernel

end LSMEngine.Control
