import Charlotte.Ingress.Policy

/-!
# A flow stays on its backend

The frame router installs snapshots, forgets the flows whose backend has left, and asks for the
snapshot of each packet. The epoch of a bound flow decides its backend: snapshots of one epoch
have the same eligible nodes.
-/

namespace Charlotte.Ingress

open Lib List Option

theorem mem_of_maxBy {α : Type} {less : α → α → Bool} {list : List α} {x : α}
    (h : maxBy less list = some x) : x ∈ list := by
  cases list with
  | nil => cases h
  | cons first rest =>
    cases h
    induction rest generalizing first with
    | nil => exact mem_cons_self
    | cons next rest ih =>
      rw [foldl_cons]
      split
      · exact cons_subset_cons first (subset_cons_self next rest) (ih first)
      · exact mem_cons_of_mem _ (ih next)

/-! ### Bound flows -/

namespace FlowEpochTable

/-- The flow is bound to the epoch. -/
def Bound (t : FlowEpochTable) (flow : FlowKey) (epoch : UInt64) : Prop :=
  ∃ entry ∈ t.entries, entry.flow = flow ∧ entry.epoch = epoch

/-- No flow is bound twice. -/
def Single (t : FlowEpochTable) : Prop := (t.entries.map (·.flow)).Nodup

variable {t : FlowEpochTable} {packet : ParsedFlow} {epoch cur : UInt64} {allowNew : Bool}
  {entry : FlowBinding}

theorem find_zipIdx {index : ℕ}
    (h : t.entries.zipIdx.find? (·.1.flow == packet.key) = some (entry, index)) :
    t.entries[index]? = some entry ∧ entry.flow = packet.key :=
  ⟨mk_mem_zipIdx_iff_getElem?.mp (mem_of_find?_eq_some h), by simpa using find?_some h⟩

theorem ne_of_find_zipIdx (h : t.entries.zipIdx.find? (·.1.flow == packet.key) = none)
    (hent : entry ∈ t.entries) : entry.flow ≠ packet.key := by
  obtain ⟨_, hat⟩ := mem_iff_getElem?.mp hent
  simpa using find?_eq_none.mp h _ (mk_mem_zipIdx_iff_getElem?.mpr hat)

/-- A bound flow keeps its epoch, and its binding unless the packet is terminal. -/
theorem observe_bound (hs : t.Single) (hb : t.Bound packet.key epoch) (cur : UInt64) (allowNew : Bool) :
    (t.observe packet cur allowNew).1 = some epoch ∧
      (packet.terminal = false → (t.observe packet cur allowNew).2.Bound packet.key epoch) := by
  obtain ⟨entry, hent, hflow, rfl⟩ := hb
  unfold observe
  split
  · rename_i found _ hfind
    obtain ⟨hat, hkey⟩ := find_zipIdx hfind
    obtain rfl : found = entry := inj_on_of_nodup_map hs (mem_of_getElem? hat) hent (hkey.trans hflow.symm)
    refine ⟨rfl, fun hterm => ⟨{ found with lastSeen := max (t.clock + 1) 1 }, ?_, hflow, rfl⟩⟩
    simp only [hterm, Bool.false_eq_true, if_false]
    exact mem_set (List.getElem?_eq_some_iff.mp hat).1 _
  · next hfind => exact absurd hflow (ne_of_find_zipIdx hfind hent)

theorem observe_new (hb : ∀ epoch, ¬ t.Bound packet.key epoch) (cur : UInt64) (allowNew : Bool) :
    (t.observe packet cur allowNew).1 = (if allowNew then some cur else none) ∧
      (allowNew = true → packet.terminal = false → t.capacity ≠ 0 →
        (t.observe packet cur allowNew).2.Bound packet.key cur) := by
  unfold observe
  split
  · rename_i entry _ hfind
    obtain ⟨hat, hkey⟩ := find_zipIdx hfind
    exact absurd ⟨entry, mem_of_getElem? hat, hkey, rfl⟩ (hb entry.epoch)
  cases allowNew with
  | false => simp
  | true =>
    cases hterm : packet.terminal with
    | true => simp
    | false =>
      simp only [Bool.not_true, Bool.false_eq_true, if_false, Bool.false_or, if_true]
      split
      · next hzero => exact ⟨rfl, fun _ _ hcap => absurd (beq_iff_eq.mp hzero) hcap⟩
      · exact ⟨rfl, fun _ _ _ => ⟨_, mem_concat_self, rfl, rfl⟩⟩

theorem oldest_lt (h : t.entries ≠ []) : oldest t.entries < t.entries.length := by
  obtain ⟨least, hleast⟩ := ne_none_iff_exists'.mp (mt (argmin_eq_none (f := (·.lastSeen.toNat))).mp h)
  refine findIdx_lt_length.mpr ⟨least, argmin_mem hleast, all_eq_true.mpr fun other hother => ?_⟩
  exact decide_eq_true (UInt64.le_iff_toNat_le.mpr (le_of_mem_argmin (f := (·.lastSeen.toNat)) hother hleast))

/-- A packet of another flow that takes the binding of a flow is fresh, is not terminal and binds a
new flow in a full table, and the binding was the first of those seen least recently. -/
theorem evicted_of_observe {flow : FlowKey} (hb : t.Bound flow epoch) (hkey : packet.key ≠ flow)
    (hlost : ¬ (t.observe packet cur allowNew).2.Bound flow epoch) :
    allowNew = true ∧ (∀ epoch, ¬ t.Bound packet.key epoch) ∧ packet.terminal = false ∧
      t.entries.length = t.capacity ∧
      ∃ entry, t.entries[oldest t.entries]? = some entry ∧ entry.flow = flow := by
  obtain ⟨entry, hent, rfl, rfl⟩ := hb
  have hkept : entry ∉ (t.observe packet cur allowNew).2.entries :=
    fun hmem => hlost ⟨entry, hmem, rfl, rfl⟩
  unfold observe at hkept
  split at hkept
  · rename_i found index hfind
    obtain ⟨hat, hfound⟩ := find_zipIdx hfind
    obtain ⟨hlt, -⟩ := List.getElem?_eq_some_iff.mp hat
    have hother : t.entries[index]? ≠ some entry := by
      rw [hat]
      rintro ⟨⟩
      exact hkey hfound.symm
    -- the packet touches the entry of its own flow only
    refine absurd ?_ hkept
    dsimp only
    split
    · exact (mem_swapRemove hent hlt).resolve_left hother
    · obtain ⟨i, hi⟩ := mem_iff_getElem?.mp hent
      refine mem_iff_getElem?.mpr ⟨i, (getElem?_set_ne ?_).trans hi⟩
      rintro rfl
      exact hother hi
  · rename_i hfind
    split at hkept
    · exact absurd hent hkept
    split at hkept
    · exact absurd hent hkept
    rename_i hnew hlive
    obtain ⟨hterm, -⟩ := Bool.or_eq_false_iff.mp (Bool.not_eq_true _ ▸ hlive)
    have hgone := fun hmem => hkept (mem_append_left _ hmem)
    split at hgone
    · rename_i hfull
      have hold := (mem_swapRemove hent (oldest_lt (ne_nil_of_mem hent))).resolve_right hgone
      refine ⟨by simpa using hnew, ?_, hterm, hfull, entry, hold, rfl⟩
      rintro _ ⟨other, hother, hkey', -⟩
      exact ne_of_find_zipIdx hfind hother hkey'
    · exact absurd hent hgone

theorem capacity_observe : (t.observe packet cur allowNew).2.capacity = t.capacity := by
  unfold observe
  repeat' split
  all_goals rfl

theorem single_observe (hs : t.Single) : (t.observe packet cur allowNew).2.Single := by
  unfold observe
  split
  · rename_i index hfind
    obtain ⟨hat, _⟩ := find_zipIdx hfind
    unfold Single
    split
    · exact nodup_swapRemove hs
    · obtain ⟨_, rfl⟩ := List.getElem?_eq_some_iff.mp hat
      rw [map_set]
      change ((t.entries.map FlowBinding.flow).set index (FlowBinding.flow t.entries[index])).Nodup
      rwa [← map_set, set_getElem_self]
  · rename_i hfind
    split
    · exact hs
    split
    · exact hs
    unfold Single
    simp only [map_append, map_singleton]
    refine nodup_append.mpr ⟨?_, nodup_singleton _, ?_⟩
    · split
      · exact nodup_swapRemove hs
      · exact hs
    · rintro _ hflow _ hkey rfl
      obtain ⟨entry, hent, hentryFlow⟩ := mem_map.mp hflow
      refine ne_of_find_zipIdx hfind (?_ : entry ∈ t.entries) (hentryFlow.trans (mem_singleton.mp hkey))
      split at hent
      · exact swapRemove_subset hent
      · exact hent

end FlowEpochTable

open FlowEpochTable

/-! ### The frame router -/

structure Router where
  service : ServiceId
  history : SnapshotHistory
  flows : FlowEpochTable

inductive Input
  | snapshot (s : BackendSnapshot)
  | packet (packet : ParsedFlow) (fresh : Bool)

namespace Router

variable (service : ServiceId)

/-- `SNAPSHOT_HISTORY_CAPACITY` and `FLOW_EPOCH_CAPACITY`. -/
def new : Router := ⟨service, .new 4, .new 1024⟩

/-- A snapshot that was polled, or a packet; the node is the backend of the packet. -/
def step (r : Router) : Input → Router × Option UInt64
  | .snapshot s =>
    let history := r.history.install s
    ({ r with history, flows := r.flows.removeAbsentBackends r.service history s }, none)
  | .packet packet fresh =>
    match snapshotForFlow packet r.history r.flows fresh with
    | (.error _, flows) => ({ r with flows }, none)
    | (.ok snapshot, flows) =>
      ({ r with flows }, (selectBackend r.service packet.key snapshot).map (·.nodeId))

def run (inputs : List Input) : Router :=
  inputs.foldl (fun r input => (r.step input).1) (new service)

/-- The packet at a position is sent to the node. -/
def Sent (inputs : List Input) (position : ℕ) (flow : FlowKey) (node : UInt64) : Prop :=
  ∃ packet fresh, inputs[position]? = some (.packet packet fresh) ∧ packet.key = flow ∧
    ((run service (inputs.take position)).step (.packet packet fresh)).2 = some node

/-- What ends the stay of a flow: its terminal packet; in a full table, where its entry is the first
of those seen least recently, a packet that binds another flow; or a snapshot without its backend
among the members. -/
inductive Ends (r : Router) (flow : FlowKey) : Input → Prop
  | terminal {packet : ParsedFlow} {fresh : Bool} (hkey : packet.key = flow)
      (hterminal : packet.terminal = true) : Ends r flow (.packet packet fresh)
  | evicted {packet : ParsedFlow} {entry : FlowBinding}
      (hnew : ∀ epoch, ¬ r.flows.Bound packet.key epoch) (hlive : packet.terminal = false)
      (hfull : r.flows.entries.length = r.flows.capacity)
      (holdest : r.flows.entries[oldest r.flows.entries]? = some entry) (hflow : entry.flow = flow) :
      Ends r flow (.packet packet true)
  | left {s known : BackendSnapshot} {epoch : UInt64} {backend : Backend}
      (hbound : r.flows.Bound flow epoch) (hknown : (r.history.install s).get epoch = some known)
      (hbackend : selectBackend r.service flow known = some backend)
      (hleft : ∀ member ∈ s.members, member.nodeId ≠ backend.nodeId) : Ends r flow (.snapshot s)

/-! ### Runs -/

variable {service} {inputs : List Input} {r : Router} {flow : FlowKey} {epoch : UInt64}
  {packet : ParsedFlow} {fresh : Bool} {node : UInt64} {input : Input}

/-- What holds of the router after some of the inputs. -/
structure Routes (service : ServiceId) (inputs : List Input) (r : Router) : Prop where
  service : r.service = service
  capacity : r.flows.capacity ≠ 0
  single : r.flows.Single
  installed : ∀ s ∈ r.history.snapshots, .snapshot s ∈ inputs

/-- The node of a snapshot that a flow is sent to. -/
def target (service : ServiceId) (flow : FlowKey) (s : BackendSnapshot) : Option UInt64 :=
  (selectBackend service flow s).map (·.nodeId)

theorem step_packet {current : BackendSnapshot} (hcur : r.history.current = some current) :
    r.step (.packet packet fresh) =
      ({ r with flows := (r.flows.observe packet current.epoch fresh).2 },
        (r.flows.observe packet current.epoch fresh).1.bind fun epoch =>
          (r.history.get epoch).bind (target r.service packet.key)) := by
  simp only [step, snapshotForFlow, hcur]
  cases r.flows.observe packet current.epoch fresh with
  | mk result =>
    cases result with
    | none => rfl
    | some epoch => cases hget : r.history.get epoch <;> simp [hget, target]

theorem step_packet_none (hcur : r.history.current = none) :
    r.step (.packet packet fresh) = (r, none) := by
  simp [step, snapshotForFlow, hcur]

theorem step_bound (hs : r.flows.Single) (hb : r.flows.Bound packet.key epoch) (fresh : Bool) :
    (r.step (.packet packet fresh)).2 = (r.history.get epoch).bind (target r.service packet.key) ∧
      (packet.terminal = false → (r.step (.packet packet fresh)).1.flows.Bound packet.key epoch) := by
  cases hcur : r.history.current with
  | none =>
    have hemp : r.history.snapshots = [] := getLast?_eq_none_iff.mp hcur
    rw [step_packet_none hcur]
    exact ⟨by simp [SnapshotHistory.get, hemp], fun _ => hb⟩
  | some current =>
    obtain ⟨hepoch, hkept⟩ := observe_bound hs hb current.epoch fresh
    rw [step_packet hcur]
    exact ⟨by rw [hepoch]; rfl, hkept⟩

theorem step_sent (hs : r.flows.Single) (hc : r.flows.capacity ≠ 0)
    (h : (r.step (.packet packet fresh)).2 = some node) :
    ∃ epoch s, r.history.get epoch = some s ∧ target r.service packet.key s = some node ∧
      (packet.terminal = false → (r.step (.packet packet fresh)).1.flows.Bound packet.key epoch) := by
  cases hcur : r.history.current with
  | none => simp [step_packet_none hcur] at h
  | some current =>
    by_cases hb : ∃ epoch, r.flows.Bound packet.key epoch
    · obtain ⟨epoch, hb⟩ := hb
      obtain ⟨hnode, hkept⟩ := step_bound hs hb fresh
      obtain ⟨s, hget, htgt⟩ := bind_eq_some_iff.mp (hnode.symm.trans h)
      exact ⟨epoch, s, hget, htgt, hkept⟩
    · obtain ⟨hepoch, hkept⟩ := observe_new (not_exists.mp hb) current.epoch fresh
      rw [step_packet hcur] at h ⊢
      cases fresh with
      | false => simp [hepoch] at h
      | true =>
        simp only [hepoch, if_true, bind_some] at h
        obtain ⟨s, hget, htgt⟩ := bind_eq_some_iff.mp h
        exact ⟨current.epoch, s, hget, htgt, fun hterm => hkept rfl hterm hc⟩

/-- A packet of another flow takes a binding only by eviction. -/
theorem evicted_of_lost (hb : r.flows.Bound flow epoch) (hkey : packet.key ≠ flow)
    (hlost : ¬ (r.step (.packet packet fresh)).1.flows.Bound flow epoch) :
    fresh = true ∧ (∀ epoch, ¬ r.flows.Bound packet.key epoch) ∧ packet.terminal = false ∧
      r.flows.entries.length = r.flows.capacity ∧
      ∃ entry, r.flows.entries[oldest r.flows.entries]? = some entry ∧ entry.flow = flow := by
  cases hcur : r.history.current with
  | none =>
    rw [step_packet_none hcur] at hlost
    exact absurd hb hlost
  | some current =>
    rw [step_packet hcur] at hlost
    exact evicted_of_observe hb hkey hlost

theorem bound_step (node : UInt64) (hs : r.flows.Single)
    (hb : r.flows.Bound flow epoch) (hends : ¬ Ends r flow input)
    (hkn : ∀ known ∈ (r.step input).1.history.snapshots, known.epoch = epoch →
      target r.service flow known = some node) : (r.step input).1.flows.Bound flow epoch := by
  cases input with
  | packet packet fresh =>
    by_cases hkey : packet.key = flow
    · subst hkey
      refine (step_bound hs hb fresh).2 ?_
      by_contra hterm
      exact hends (.terminal rfl (by simpa using hterm))
    · by_contra hlost
      obtain ⟨rfl, hnew, hlive, hfull, entry, hold, hflow⟩ := evicted_of_lost hb hkey hlost
      exact hends (.evicted hnew hlive hfull hold hflow)
  | snapshot s =>
    obtain ⟨entry, hent, rfl, rfl⟩ := id hb
    refine ⟨entry, mem_filter.mpr ⟨hent, ?_⟩, rfl, rfl⟩
    cases hget : (r.history.install s).get entry.epoch with
    | none => rfl
    | some known =>
      obtain ⟨_, hback, -⟩ := map_eq_some_iff.mp (hkn known (mem_of_find?_eq_some hget)
        (by simpa using find?_some hget))
      by_contra hleft
      refine hends (.left hb hget hback fun member hmb heq => hleft ?_)
      simp only [hback, any_some]
      exact any_eq_true.mpr ⟨member, hmb, beq_iff_eq.mpr heq⟩

theorem mem_install {h : SnapshotHistory} {s x : BackendSnapshot}
    (hx : x ∈ (h.install s).snapshots) : x ∈ h.snapshots ∨ x = s := by
  unfold SnapshotHistory.install at hx
  split at hx
  · exact .inl hx
  split at hx
  · exact mem_or_eq_of_mem_set hx
  rcases mem_append.mp hx with hx | hx
  · refine .inl ?_
    split at hx
    · exact mem_of_mem_tail hx
    · exact hx
  · exact .inr (mem_singleton.mp hx)

theorem Routes.step (hr : Routes service inputs r) (input : Input) :
    Routes service (inputs ++ [input]) (r.step input).1 := by
  have hold : ∀ s ∈ r.history.snapshots, .snapshot s ∈ inputs ++ [input] :=
    fun s hs => mem_append_left _ (hr.installed s hs)
  cases input with
  | packet =>
    cases hcur : r.history.current with
    | none =>
      rw [step_packet_none hcur]
      exact ⟨hr.service, hr.capacity, hr.single, hold⟩
    | some =>
      rw [step_packet hcur]
      exact ⟨hr.service, capacity_observe.trans_ne hr.capacity,
        single_observe hr.single, hold⟩
  | snapshot =>
    refine ⟨hr.service, hr.capacity, ?_, fun x hx => ?_⟩
    · exact hr.single.sublist (filter_sublist.map _)
    · rcases mem_install hx with hx | rfl
      · exact hold x hx
      · exact mem_concat_self

theorem routes_run (service : ServiceId) (inputs : List Input) :
    Routes service inputs (run service inputs) := by
  induction inputs using reverseRecOn with
  | nil => exact ⟨rfl, (by decide : 1024 ≠ 0), .nil, nofun⟩
  | append_singleton inputs input ih =>
    simpa [run] using ih.step input

/-- The tables of the router are within their capacities. -/
structure Bounded (r : Router) : Prop where
  flows : r.flows.capacity = 1024 ∧ r.flows.entries.length ≤ 1024
  history : r.history.capacity = 4 ∧ r.history.snapshots.length ≤ 4

theorem Bounded.step (h : r.Bounded) (input : Input) : (r.step input).1.Bounded := by
  have hflows := h.flows
  cases input with
  | packet =>
    cases hcur : r.history.current with
    | none => rwa [step_packet_none hcur]
    | some =>
      rw [step_packet hcur]
      refine ⟨⟨capacity_observe.trans hflows.1, ?_⟩, h.history⟩
      -- a full table loses an entry before it takes one
      unfold observe swapRemove
      grind
  | snapshot =>
    have hhist := h.history
    refine ⟨⟨hflows.1, (length_filter_le ..).trans hflows.2⟩, ?_⟩
    unfold Router.step SnapshotHistory.install
    grind

theorem tables_stay_bounded (service : ServiceId) (inputs : List Input) :
    (run service inputs).Bounded := by
  induction inputs using reverseRecOn with
  | nil => exact ⟨⟨rfl, Nat.zero_le _⟩, rfl, Nat.zero_le _⟩
  | append_singleton inputs input ih => simpa [run] using ih.step input

theorem run_take_succ {position : ℕ} (h : inputs[position]? = some input) :
    run service (inputs.take (position + 1)) =
      ((run service (inputs.take position)).step input).1 := by
  rw [take_add_one, h, run, foldl_append]
  rfl

end Router

open Router

/-- With snapshots of one epoch that agree on the eligible nodes: until its stay ends, the packets
of a flow are sent to one node; the epoch of a bound flow decides, and a packet whose epoch is gone
is dropped; without a fresh snapshot an unbound flow gets no backend; and the node is one of an
installed snapshot. -/
theorem flow_stays_on_backend (service : ServiceId) (inputs : List Input)
    (hsame : ∀ s s', .snapshot s ∈ inputs → .snapshot s' ∈ inputs → s.epoch = s'.epoch →
      s.nodes = s'.nodes) :
    (∀ i j flow v w, i ≤ j → Sent service inputs i flow v → Sent service inputs j flow w →
      (∀ k input, i ≤ k → k < j → inputs[k]? = some input →
        ¬ Ends (run service (inputs.take k)) flow input) → v = w) ∧
    (∀ k packet fresh epoch, inputs[k]? = some (.packet packet fresh) →
      (run service (inputs.take k)).flows.Bound packet.key epoch →
      ((run service (inputs.take k)).step (.packet packet fresh)).2 =
          ((run service (inputs.take k)).history.get epoch).bind (target service packet.key) ∧
        (packet.terminal = false →
          (run service (inputs.take (k + 1))).flows.Bound packet.key epoch)) ∧
    (∀ k packet, inputs[k]? = some (.packet packet false) →
      (∀ epoch, ¬ (run service (inputs.take k)).flows.Bound packet.key epoch) →
      ((run service (inputs.take k)).step (.packet packet false)).2 = none) ∧
    ∀ k flow v, Sent service inputs k flow v → ∃ s, .snapshot s ∈ inputs.take k ∧ v ∈ s.nodes := by
  have hr := fun k => routes_run service (inputs.take k)
  have hsent : ∀ {k flow v}, Sent service inputs k flow v → ∃ epoch s,
      (run service (inputs.take k)).history.get epoch = some s ∧ target service flow s = some v ∧
      ((∀ input, inputs[k]? = some input → ¬ Ends (run service (inputs.take k)) flow input) →
        (run service (inputs.take (k + 1))).flows.Bound flow epoch) := by
    rintro k _ _ ⟨_, _, hat, rfl, hnode⟩
    obtain ⟨epoch, s, hget, htgt, hkept⟩ := step_sent (hr k).single (hr k).capacity hnode
    refine ⟨epoch, s, hget, (hr k).service ▸ htgt, fun hends => ?_⟩
    rw [run_take_succ hat]
    refine hkept ?_
    by_contra hterm
    exact hends _ hat (.terminal rfl (by simpa using hterm))
  have hheld : ∀ {k epoch s}, (run service (inputs.take k)).history.get epoch = some s →
      s.epoch = epoch ∧ .snapshot s ∈ inputs.take k := fun hget =>
    ⟨by simpa using find?_some hget, (hr _).installed _ (mem_of_find?_eq_some hget)⟩
  refine ⟨?_, ?_, ?_, ?_⟩
  · intro i j flow v w hij hi hj hends
    obtain ⟨epoch, s, hget, htgt, hbd⟩ := hsent hi
    obtain ⟨packet, fresh, hat, rfl, hnode⟩ := hj
    have htarg : ∀ {k known}, known ∈ (run service (inputs.take k)).history.snapshots →
        known.epoch = epoch → target service packet.key known = some v := by
      intro k known hmem hepoch
      have hns := hsame s known (mem_of_mem_take (hheld hget).2)
        (mem_of_mem_take ((hr k).installed known hmem)) ((hheld hget).1.trans hepoch.symm)
      exact (selectBackend_nodes service packet.key hns).symm.trans htgt
    rcases Nat.eq_or_lt_of_le hij with rfl | hlt
    · obtain ⟨_, _, hat', -, hnode'⟩ := hi
      cases hat.symm.trans hat'
      exact some.inj (hnode'.symm.trans hnode)
    · have hstays : ∀ k, i < k → k ≤ j → (run service (inputs.take k)).flows.Bound packet.key epoch := by
        intro k hik hkj
        induction k, hik using Nat.le_induction with
        | base => exact hbd fun input => hends i input le_rfl hlt
        | succ k hik ih =>
          have hlen : k < inputs.length := Nat.lt_trans hkj (List.getElem?_eq_some_iff.mp hat).1
          have hinput := getElem?_eq_getElem hlen
          rw [run_take_succ hinput]
          refine bound_step v (hr k).single (ih (by omega)) (hends k _ (by omega) hkj hinput)
            fun known hmem => ?_
          rw [(hr k).service]
          exact htarg (run_take_succ hinput ▸ hmem)
      obtain ⟨hdeci, -⟩ := step_bound (hr j).single (hstays j hlt le_rfl) fresh
      obtain ⟨_, hget', htgt'⟩ := bind_eq_some_iff.mp (hdeci.symm.trans hnode)
      rw [(hr j).service] at htgt'
      exact some.inj ((htarg (mem_of_find?_eq_some hget') (hheld hget').1).symm.trans htgt')
  · intro k packet fresh epoch hat hb
    obtain ⟨hnode, hkept⟩ := step_bound (hr k).single hb fresh
    exact ⟨by rw [hnode, (hr k).service], fun hterm => run_take_succ hat ▸ hkept hterm⟩
  · intro k packet hat hb
    cases hcur : (run service (inputs.take k)).history.current with
    | none => rw [step_packet_none hcur]
    | some =>
      rw [step_packet hcur, (observe_new hb _ _).1]
      rfl
  · intro k flow v h
    obtain ⟨_, s, hget, htgt, -⟩ := hsent h
    obtain ⟨_, hback, rfl⟩ := map_eq_some_iff.mp htgt
    refine ⟨s, (hheld hget).2, mem_map_of_mem ?_⟩
    unfold selectBackend at hback
    split at hback
    · exact mem_of_maxBy hback
    · cases hback

def webService : ServiceId := ⟨[10, 0, 0, 1], 6, 80⟩

def webFlow : FlowKey := ⟨6, [10, 0, 0, 2], [10, 0, 0, 1], 4000, 80⟩

def twoNodes : BackendSnapshot := ⟨1, 1, some 1, [⟨1, []⟩, ⟨2, []⟩], [⟨1, []⟩, ⟨2, []⟩]⟩

def threeNodes : BackendSnapshot := ⟨2, 1, some 1, ⟨7, []⟩ :: twoNodes.members, ⟨7, []⟩ :: twoNodes.backends⟩

/-- A third node becomes a member between two packets of a flow. -/
def growing : List Input := [.snapshot twoNodes, .packet ⟨webFlow, false⟩ true, .snapshot threeNodes,
  .packet ⟨webFlow, false⟩ true]

/-- A new flow of these addresses would go to the third node. -/
theorem flow_stays_while_growing : target webService webFlow threeNodes = some 7 ∧
    Sent webService growing 1 webFlow 1 ∧ Sent webService growing 3 webFlow 1 ∧
    ∀ node, Sent webService growing 3 webFlow node → 1 = node := by
  have hfirst : Sent webService growing 1 webFlow 1 := ⟨_, _, rfl, rfl, by decide +kernel⟩
  refine ⟨by decide +kernel, hfirst, ⟨_, _, rfl, rfl, by decide +kernel⟩, fun node hnode => ?_⟩
  refine (flow_stays_on_backend webService growing ?_).1 1 3 webFlow 1 node (by decide) hfirst hnode ?_
  · intro s s' hs hs' hepoch
    simp only [growing, mem_cons, Input.snapshot.injEq, reduceCtorEq, not_mem_nil, or_false,
      false_or] at hs hs'
    rcases hs with rfl | rfl <;> rcases hs' with rfl | rfl
    · rfl
    · cases hepoch
    · cases hepoch
    · rfl
  · intro k input hi hj hat hends
    obtain rfl | rfl : k = 1 ∨ k = 2 := by omega
    · cases hat
      cases hends with
      | terminal _ hterminal => cases hterminal
      | evicted _ _ _ holdest => cases holdest
    · cases hat
      cases hends with
      | left hbound hknown hbackend hleft =>
        obtain ⟨entry, hent, -, rfl⟩ := hbound
        obtain rfl : entry = ⟨webFlow, 1, 1⟩ := mem_singleton.mp hent
        cases hknown
        have hchosen : selectBackend webService webFlow twoNodes = some ⟨1, []⟩ := by decide +kernel
        cases hchosen.symm.trans hbackend
        exact hleft ⟨1, []⟩ (by decide) rfl

end Charlotte.Ingress
