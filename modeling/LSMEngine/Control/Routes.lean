import LSMEngine.Common.Ranges
import LSMEngine.Control.Names
/-!
# Control plane — the layout of the shards

`buildShardRoutes` accepts an order of shards if it names each of them
once and their ranges follow one another. What it accepts is laid out in
the sense of `KeyRange.LaidOut`, and then `shardForKey`, which searches
the routes for a key, finds the shard whose range holds the key, if there
is one (`Layout.shardForKey_eq_some`).

A control plane with such routes and with trimmed ids has a `Layout`.
Whether it has depends on the ranges of its shards only
(`buildShardRoutes_congr`).
-/

namespace LSMEngine.Control

variable {H ρ ρ' : Type} {shards : Shards ρ} {shards' : Shards ρ'} {key start stop s : Bytes}
  {order seen : List String} {routes : List ShardRoute}

/-! ## Ranges -/

/-- The range of keys that a start and an end stand for. -/
def keyRange (start stop : Bytes) : KeyRange Bytes :=
  ⟨start, if stop = [] then ⊤ else (stop : WithTop Bytes)⟩

theorem lt_stop_iff : (key : WithTop Bytes) < (keyRange start stop).stop ↔ stop = [] ∨ key < stop := by
  rw [keyRange]
  by_cases h : stop = []
  · simp [h]
  · simp [h, WithTop.coe_lt_coe]

/-- A start that is not above the key. -/
theorem not_below_iff : ¬(start ≠ [] ∧ key < start) ↔ start ≤ key := by
  rw [← not_lt]
  refine not_congr ⟨And.right, fun h => ⟨?_, h⟩⟩
  rintro rfl
  exact List.not_lt_nil key h

/-- **`keyInRange` is membership in the range.** -/
theorem keyInRange_eq_true : keyInRange key start stop = true ↔ key ∈ keyRange start stop := by
  rw [KeyRange.mem_def, lt_stop_iff, keyInRange, show (keyRange start stop).start = start from rfl,
    ← not_below_iff]
  by_cases h : start ≠ [] ∧ key < start
  · rw [if_pos h]
    exact iff_of_false Bool.false_ne_true fun hc => hc.1 h
  · rw [if_neg h]
    by_cases h' : stop = [] ∨ key < stop
    · rw [if_neg (by tauto)]
      exact iff_of_true rfl ⟨h, h'⟩
    · rw [if_pos (by tauto)]
      exact iff_of_false Bool.false_ne_true fun hc => h' hc.2

/-- The range of a route. -/
def ShardRoute.range (r : ShardRoute) : KeyRange Bytes := keyRange r.start r.stop

/-- The range of a shard. -/
def ShardStatus.range (shard : ShardStatus ρ) : KeyRange Bytes :=
  keyRange shard.startKey shard.endKey

/-- The route to a shard. -/
def ShardStatus.route (shard : ShardStatus ρ) : ShardRoute :=
  ⟨shard.id, shard.startKey, shard.endKey⟩

/-! ## What `buildShardRoutes` accepts -/

theorem map_eq_ok {ε α β : Type} {f : α → β} {x : Except ε α} {b : β} (h : x.map f = .ok b) :
    ∃ a, x = .ok a ∧ f a = b := by
  cases x with
  | error err => cases h
  | ok a => exact ⟨a, rfl, Except.ok.inj h⟩

theorem before_of_boundaryErr {prev r : ShardRoute} (h : boundaryErr (some prev) r.id r.start = none) :
    prev.range.Before r.range := by
  rw [boundaryErr] at h
  split at h
  · cases h
  next hopen =>
  split at h
  · cases h
  split at h
  · cases h
  next hlt =>
  rw [KeyRange.Before, ShardRoute.range, keyRange, if_neg hopen]
  exact WithTop.coe_le_coe.mpr (not_lt.mp hlt)

/-- What the loop has checked of the routes it returns. -/
structure Routed (shards : Shards ρ) (prev : Option ShardRoute) (seen order : List String)
    (routes : List ShardRoute) : Prop where
  ids : routes.map ShardRoute.id = order.map trimSpace
  found : ∀ r ∈ routes, ∃ shard, shards.lookup r.id = some shard ∧
    r.start = shard.startKey ∧ r.stop = shard.endKey
  named : ∀ r ∈ routes, r.id ≠ ""
  unseen : ∀ r ∈ routes, r.id ∉ seen
  nodup : (routes.map ShardRoute.id).Nodup
  nonempty : ∀ r ∈ routes, r.range.Nonempty
  chain : ((prev.toList ++ routes).map ShardRoute.range).IsChain KeyRange.Before

theorem routed_of_loop {prev : Option ShardRoute}
    (h : buildShardRoutesLoop shards prev seen order = .ok routes) :
    Routed shards prev seen order routes := by
  induction order generalizing prev seen routes with
  | nil =>
    obtain rfl := Except.ok.inj h
    refine ⟨rfl, by simp, by simp, by simp, by simp, by simp, ?_⟩
    rcases prev with _ | prev <;> simp
  | cons id order ih =>
    rw [buildShardRoutesLoop] at h
    split at h
    · cases h
    next hname =>
    split at h
    · cases h
    next hseen =>
    split at h
    · cases h
    next shard hfound =>
    split at h
    · cases h
    next hrange =>
    split at h
    · cases h
    next hbound =>
    obtain ⟨rest, hrest, rfl⟩ := map_eq_ok h
    -- the shard is routed, and so is the rest
    have hr := ih hrest
    refine ⟨?_, ?_, ?_, ?_, ?_, ?_, ?_⟩
    · rw [List.map_cons, List.map_cons, hr.ids]
    · intro r hmem
      rcases List.mem_cons.mp hmem with rfl | hmem
      · exact ⟨shard, hfound, rfl, rfl⟩
      · exact hr.found r hmem
    · intro r hmem
      rcases List.mem_cons.mp hmem with rfl | hmem
      · exact hname
      · exact hr.named r hmem
    · intro r hmem
      rcases List.mem_cons.mp hmem with rfl | hmem
      · exact hseen
      · exact fun hc => hr.unseen r hmem (List.mem_cons_of_mem _ hc)
    · rw [List.map_cons, List.nodup_cons]
      refine ⟨fun hc => ?_, hr.nodup⟩
      obtain ⟨r, hmem, hid⟩ := List.mem_map.mp hc
      exact hr.unseen r hmem (by rw [hid]; exact List.mem_cons_self)
    · intro r hmem
      rcases List.mem_cons.mp hmem with rfl | hmem
      · refine lt_stop_iff.mpr ?_
        by_contra hc
        rw [not_or] at hc
        exact hrange hc
      · exact hr.nonempty r hmem
    · rcases prev with _ | prev
      · exact hr.chain
      · exact List.isChain_cons_cons.mpr ⟨before_of_boundaryErr hbound, hr.chain⟩

/-- **What `buildShardRoutes` accepts.** -/
theorem routed_of_build (h : buildShardRoutes order shards = .ok routes) :
    order.length = shards.keys.length ∧ Routed shards none [] order routes := by
  rw [buildShardRoutes] at h
  split at h
  · cases h
  split at h
  · cases h
  split at h
  · cases h
  next hlen => exact ⟨not_not.mp hlen, routed_of_loop h⟩

/-- The order, trimmed, lists each shard once. -/
theorem perm_of_build (h : buildShardRoutes order shards = .ok routes) :
    (order.map trimSpace).Perm shards.keys := by
  obtain ⟨hlen, hr⟩ := routed_of_build h
  rw [← hr.ids]
  have hsub : routes.map ShardRoute.id ⊆ shards.keys := by
    intro id hid
    obtain ⟨r, hmem, rfl⟩ := List.mem_map.mp hid
    obtain ⟨shard, hlookup, -⟩ := hr.found r hmem
    exact AList.mem_keys.mp (AList.lookup_isSome.mp (by rw [hlookup]; rfl))
  refine (List.subperm_of_subset hr.nodup hsub).perm_of_length_le ?_
  rw [hr.ids, List.length_map, hlen]

theorem Routed.laidOut (h : Routed shards none seen order routes) :
    KeyRange.LaidOut (routes.map ShardRoute.range) := by
  refine ⟨fun r hr => ?_, h.chain⟩
  obtain ⟨route, hroute, rfl⟩ := List.mem_map.mp hr
  exact h.nonempty route hroute

/-! ## What it depends on -/

/-- What `buildShardRoutes` reads of a shard. -/
def ShardStatus.bounds (shard : ShardStatus ρ) : Bytes × Bytes := (shard.startKey, shard.endKey)

theorem buildShardRoutesLoop_congr
    (h : ∀ id, (shards.lookup id).map ShardStatus.bounds = (shards'.lookup id).map ShardStatus.bounds)
    (prev : Option ShardRoute) (seen order : List String) :
    buildShardRoutesLoop shards prev seen order = buildShardRoutesLoop shards' prev seen order := by
  induction order generalizing prev seen with
  | nil => rfl
  | cons id order ih =>
    rw [buildShardRoutesLoop, buildShardRoutesLoop]
    have hid := h (trimSpace id)
    cases hs : shards.lookup (trimSpace id) with
    | none =>
      cases hs' : shards'.lookup (trimSpace id) with
      | none => simp only
      | some shard' => simp [hs, hs'] at hid
    | some shard =>
      cases hs' : shards'.lookup (trimSpace id) with
      | none => simp [hs, hs'] at hid
      | some shard' =>
        have hb : shard.bounds = shard'.bounds := by simpa [hs, hs'] using hid
        obtain ⟨hstart, hstop⟩ := Prod.mk.inj hb
        simp only [hstart, hstop, ih]

/-- **The routes depend on the ranges of the shards**, and on how many
there are. -/
theorem buildShardRoutes_congr
    (h : ∀ id, (shards.lookup id).map ShardStatus.bounds = (shards'.lookup id).map ShardStatus.bounds)
    (hlen : shards.keys.length = shards'.keys.length) (order : List String) :
    buildShardRoutes order shards = buildShardRoutes order shards' := by
  have hnil : shards.keys = [] ↔ shards'.keys = [] := by
    rw [← List.length_eq_zero_iff, hlen, List.length_eq_zero_iff]
  simp only [buildShardRoutes, hnil, hlen, buildShardRoutesLoop_congr h]

/-! ## Layouts -/

variable {c : ControlPlane H ρ} {id id' : String} {shard shard' : ShardStatus ρ}

/-- **The search cuts the routes** at the one that holds the key, if one
does. -/
theorem exists_cut (h : Routed shards none [] order routes) (key : Bytes) :
    ∃ as bs, routes = as ++ bs ∧
      search routes.length (fun i => routes[i]?.any fun route =>
        route.stop = [] || decide (key < route.stop)) = as.length ∧
      ∀ r ∈ routes, (key ∈ r.range ↔ bs.head? = some r ∧ r.start ≤ key) := by
  have hmono : routes.Pairwise fun r r' =>
      (decide (r.stop = []) || decide (key < r.stop)) = true →
        (decide (r'.stop = []) || decide (key < r'.stop)) = true := by
    refine (List.pairwise_map.mp h.laidOut.pairwise).imp_of_mem fun {r r'} _ hr' hb hk => ?_
    rw [Bool.or_eq_true, decide_eq_true_eq, decide_eq_true_eq, ← lt_stop_iff] at hk ⊢
    exact hb.lt_stop (h.nonempty r' hr') hk
  obtain ⟨as, bs, hcut, hidx, has, hbs⟩ := search_list hmono
  refine ⟨as, bs, hcut, hidx, fun r hr => ?_⟩
  refine KeyRange.LaidOut.mem_iff (hcut ▸ h.laidOut) (fun a ha => ?_) (fun b hb => ?_) (hcut ▸ hr)
  · have := has a ha
    rwa [Bool.or_eq_false_iff, decide_eq_false_iff_not, decide_eq_false_iff_not, ← not_or,
      ← lt_stop_iff] at this
  · have := hbs b hb
    rwa [Bool.or_eq_true, decide_eq_true_eq, decide_eq_true_eq, ← lt_stop_iff] at this

/-- The route that holds the key is the only one, so it is the first. -/
theorem find_eq_some (h : Routed shards none [] order routes) {r : ShardRoute} (hr : r ∈ routes)
    (hkey : key ∈ r.range) :
    (routes.find? fun r => keyInRange key r.start r.stop) = some r := by
  obtain ⟨as, bs, -, -, hin⟩ := exists_cut h key
  have hsome : (routes.find? fun r => keyInRange key r.start r.stop).isSome = true :=
    List.find?_isSome.mpr ⟨r, hr, keyInRange_eq_true.mpr hkey⟩
  obtain ⟨r', hr'⟩ := Option.isSome_iff_exists.mp hsome
  have hfound := List.find?_some hr'
  have hkey' : key ∈ r'.range := keyInRange_eq_true.mp hfound
  have hhead' := ((hin r' (List.mem_of_find?_eq_some hr')).mp hkey').1
  rw [hr', Option.some.inj (((hin r hr).mp hkey).1.symm.trans hhead')]

/-- **The search finds the first route that holds the key.** -/
theorem shardForKey_eq_find (h : Routed c.shards none [] c.order c.routes) (key : Bytes) :
    c.shardForKey key = (c.routes.find? fun r => keyInRange key r.start r.stop).bind fun r =>
      c.shards.lookup r.id := by
  obtain ⟨as, bs, hcut, hidx, hin⟩ := exists_cut h key
  have hget : c.routes[as.length]? = bs.head? := by
    rw [hcut, List.getElem?_append_right (le_refl _), Nat.sub_self, List.head?_eq_getElem?]
  rw [ControlPlane.shardForKey]
  simp only [hidx, hget]
  rcases hhead : bs.head? with _ | r
  · -- the search has come to the end
    have hnone : (c.routes.find? fun r => keyInRange key r.start r.stop) = none := by
      refine List.find?_eq_none.mpr fun r hr hkey => ?_
      have := ((hin r hr).mp (keyInRange_eq_true.mp hkey)).1
      rw [hhead] at this
      cases this
    rw [hnone]
    rfl
  have hr : r ∈ c.routes := hcut ▸ List.mem_append_right _ (List.mem_of_head? hhead)
  dsimp only
  split
  · next hbelow =>
    have hnone : (c.routes.find? fun r => keyInRange key r.start r.stop) = none := by
      refine List.find?_eq_none.mpr fun r' hr' hkey => ?_
      obtain ⟨hhead', hle⟩ := (hin r' hr').mp (keyInRange_eq_true.mp hkey)
      rw [← Option.some.inj (hhead.symm.trans hhead')] at hle
      exact not_below_iff.mpr hle hbelow
    rw [hnone]
    rfl
  · next habove =>
    rw [find_eq_some h hr ((hin r hr).mpr ⟨hhead, not_below_iff.mp habove⟩)]
    rfl

/-- **A control plane in order.** Its routes are those of its shards, each
shard is kept under its id, and the ids are trimmed. -/
structure Layout (c : ControlPlane H ρ) : Prop where
  routes : buildShardRoutes c.order c.shards = .ok c.routes
  named : ∀ id shard, c.shards.lookup id = some shard → shard.id = id
  trimmed : ∀ id ∈ c.order, trimSpace id = id

namespace Layout

variable (h : Layout c)
include h

theorem routed : Routed c.shards none [] c.order c.routes := (routed_of_build h.routes).2

theorem routes_ids : c.routes.map ShardRoute.id = c.order := by
  rw [h.routed.ids]
  exact (List.map_congr_left h.trimmed).trans (List.map_id' c.order)

theorem nodup : c.order.Nodup := h.routes_ids ▸ h.routed.nodup

/-- **The order lists each shard once.** -/
theorem perm : c.order.Perm c.shards.keys := by
  have hperm := perm_of_build h.routes
  rwa [(List.map_congr_left h.trimmed).trans (List.map_id' c.order)] at hperm

theorem mem_order : id ∈ c.order ↔ id ∈ c.shards := h.perm.mem_iff.trans AList.mem_keys.symm

theorem mem_order_of_lookup (hs : c.shards.lookup id = some shard) : id ∈ c.order :=
  h.mem_order.mpr (AList.lookup_isSome.mp (by rw [hs]; rfl))

theorem exists_of_mem (hid : id ∈ c.order) : ∃ shard, c.shards.lookup id = some shard :=
  Option.isSome_iff_exists.mp (AList.lookup_isSome.mpr (h.mem_order.mp hid))

theorem name_ne (hid : id ∈ c.order) : id ≠ "" := by
  rw [← h.routes_ids] at hid
  obtain ⟨r, hr, rfl⟩ := List.mem_map.mp hid
  exact h.routed.named r hr

/-- The routes are those to the shards. -/
theorem mem_routes {r : ShardRoute} :
    r ∈ c.routes ↔ ∃ shard, c.shards.lookup r.id = some shard ∧ r = shard.route := by
  refine ⟨fun hr => ?_, ?_⟩
  · obtain ⟨shard, hs, hstart, hstop⟩ := h.routed.found r hr
    refine ⟨shard, hs, ?_⟩
    rw [ShardStatus.route, h.named _ _ hs, ← hstart, ← hstop]
  · rintro ⟨shard, hs, hr⟩
    have hid := h.mem_order_of_lookup hs
    rw [← h.routes_ids] at hid
    obtain ⟨r', hr', hid'⟩ := List.mem_map.mp hid
    obtain ⟨shard', hs', hstart, hstop⟩ := h.routed.found r' hr'
    rw [hid', hs] at hs'
    obtain rfl := Option.some.inj hs'
    have heq : r' = r := by
      rw [hr, ShardStatus.route, h.named _ _ hs, ← hid', ← hstart, ← hstop]
    exact heq ▸ hr'

/-- **The ranges are laid out.** -/
theorem laidOut : KeyRange.LaidOut (c.routes.map ShardRoute.range) := h.routed.laidOut

theorem shard_nonempty (hs : c.shards.lookup id = some shard) : shard.range.Nonempty := by
  refine h.routed.nonempty shard.route (h.mem_routes.mpr ⟨shard, ?_, rfl⟩)
  rw [ShardStatus.route, h.named _ _ hs]
  exact hs

/-- **The search finds the shard whose range holds the key.** -/
theorem shardForKey_eq_some :
    c.shardForKey key = some shard ↔ c.shards.lookup shard.id = some shard ∧ key ∈ shard.range := by
  rw [shardForKey_eq_find h.routed]
  constructor
  · intro hfind
    obtain ⟨r, hr, hs⟩ := Option.bind_eq_some_iff.mp hfind
    obtain ⟨shard', hs', hroute⟩ := h.mem_routes.mp (List.mem_of_find?_eq_some hr)
    obtain rfl : shard' = shard := Option.some.inj (hs'.symm.trans hs)
    refine ⟨by rw [h.named _ _ hs]; exact hs, ?_⟩
    have hfound := List.find?_some hr
    rw [hroute] at hfound
    exact keyInRange_eq_true.mp hfound
  · rintro ⟨hs, hkey⟩
    have hr : shard.route ∈ c.routes := h.mem_routes.mpr ⟨shard, hs, rfl⟩
    rw [find_eq_some h.routed hr hkey]
    exact hs

/-- No key is in two ranges. -/
theorem shard_unique (hs : c.shards.lookup id = some shard) (hkey : key ∈ shard.range)
    (hs' : c.shards.lookup id' = some shard') (hkey' : key ∈ shard'.range) : id = id' := by
  have h₁ := h.shardForKey_eq_some.mpr ⟨by rw [h.named _ _ hs]; exact hs, hkey⟩
  have h₂ := h.shardForKey_eq_some.mpr ⟨by rw [h.named _ _ hs']; exact hs', hkey'⟩
  rw [← h.named _ _ hs, ← h.named _ _ hs', Option.some.inj (h₁.symm.trans h₂)]

end Layout

end LSMEngine.Control
