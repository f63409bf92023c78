import Charlotte.Ingress.Flows
import Charlotte.Ingress.Epochs

/-!
# Rendezvous selection

A flow goes to the eligible node that ranks highest: by its score, and by its number where scores
are equal. A change of the eligible nodes moves a flow only if its node leaves or a node that ranks
above it comes.
-/

namespace Charlotte.Ingress

open List Option Router Replica BackendSnapshot

section Maximum

variable {α β : Type} [LinearOrder β] {rank : α → β} {less : α → α → Bool} {list : List α} {x : α}

theorem le_foldl_max (hless : ∀ a b, less a b = true ↔ rank a < rank b) (first : α) :
    ∀ item ∈ first :: list,
      rank item ≤ rank (list.foldl (fun best next => if less next best then best else next) first) := by
  induction list generalizing first with
  | nil => simp
  | cons next rest ih =>
    rw [foldl_cons]
    split
    · rename_i hlt
      obtain ⟨hfirst, hrest⟩ := forall_mem_cons.mp (ih first)
      have hnext := ((hless next first).mp hlt).le.trans hfirst
      exact forall_mem_cons.mpr ⟨hfirst, forall_mem_cons.mpr ⟨hnext, hrest⟩⟩
    · rename_i hge
      have hge := not_lt.mp (mt (hless next first).mpr hge)
      exact forall_mem_cons.mpr ⟨hge.trans (ih next next mem_cons_self), ih next⟩

/-- The greatest element, where no two of them rank the same. -/
theorem maxBy_eq_some_iff (hinj : Function.Injective rank)
    (hless : ∀ a b, less a b = true ↔ rank a < rank b) :
    maxBy less list = some x ↔ x ∈ list ∧ ∀ item ∈ list, rank item ≤ rank x := by
  have hmax : ∀ y, maxBy less list = some y → y ∈ list ∧ ∀ item ∈ list, rank item ≤ rank y := by
    intro y h
    refine ⟨mem_of_maxBy h, fun item hitem => ?_⟩
    cases list with
    | nil => cases h
    | cons first rest =>
      cases h
      exact le_foldl_max hless first item hitem
  refine ⟨hmax x, fun ⟨hmem, hle⟩ => ?_⟩
  cases hlist : maxBy less list with
  | none =>
    cases list with
    | nil => cases hmem
    | cons => cases hlist
  | some y =>
    obtain ⟨hy, hley⟩ := hmax y hlist
    exact congrArg some (hinj (le_antisymm (hle y hy) (hley x hmem)))

end Maximum

variable {service : ServiceId} {flow : FlowKey} {s t : BackendSnapshot} {node : UInt64}

/-- What backends are compared by. -/
def rank (service : ServiceId) (flow : FlowKey) (node : UInt64) : ℕ ×ₗ ℕ :=
  toLex ((rendezvousScore service flow node).toNat, node.toNat)

theorem rank_injective : Function.Injective (rank service flow) := fun _ _ h =>
  UInt64.toNat_inj.mp (Prod.ext_iff.mp (toLex.injective h)).2

theorem ranksBelow_iff (left right : UInt64) : ranksBelow service flow left right = true ↔
    rank service flow left < rank service flow right := by
  simp [ranksBelow, rank, Prod.Lex.toLex_lt_toLex, UInt64.lt_iff_toNat_lt, ← UInt64.toNat_inj]

theorem target_eq_some_iff : target service flow s = some node ↔
    (service.isValid && flow.protocol == service.protocol) = true ∧ node ∈ s.nodes ∧
      ∀ other ∈ s.nodes, rank service flow other ≤ rank service flow node := by
  unfold target selectBackend
  split
  · rename_i hvalid
    rw [maxBy_map Backend.nodeId (ranksBelow service flow)]
    exact (maxBy_eq_some_iff rank_injective ranksBelow_iff).trans (and_iff_right hvalid).symm
  · rename_i hvalid
    exact ⟨nofun, fun h => absurd h.1 hvalid⟩

theorem target_congr (h : ∀ node, node ∈ t.nodes ↔ node ∈ s.nodes) :
    target service flow t = target service flow s := by
  ext node
  simp only [target_eq_some_iff, h]

/-- A flow stays on its node, unless the node leaves or one that ranks above it comes. -/
theorem target_kept (hs : target service flow s = some node) (hmem : node ∈ t.nodes)
    (hadd : ∀ added ∈ t.nodes, added ∉ s.nodes → ¬ ranksBelow service flow node added = true) :
    target service flow t = some node := by
  obtain ⟨hvalid, -, hmax⟩ := target_eq_some_iff.mp hs
  refine target_eq_some_iff.mpr ⟨hvalid, hmem, fun other hoth => ?_⟩
  by_cases hold : other ∈ s.nodes
  · exact hmax other hold
  · exact not_lt.mp (mt (ranksBelow_iff node other).mpr (hadd other hoth hold))

/-- Minimal disruption, and what the choice does not depend on. -/
theorem rendezvous_disrupts_minimally (service : ServiceId) (flow : FlowKey) (s t : BackendSnapshot) :
    (∀ node, target service flow s = some node → node ∈ t.nodes →
      (∀ added ∈ t.nodes, added ∉ s.nodes → ¬ ranksBelow service flow node added = true) →
      target service flow t = some node) ∧
    (∀ node, target service flow s = some node → node ∈ t.nodes → t.nodes ⊆ s.nodes →
      target service flow t = some node) ∧
    (∀ added, s.nodes ⊆ t.nodes → t.nodes ⊆ added :: s.nodes →
      target service flow t = target service flow s ∨ target service flow t = some added) ∧
    ∀ epoch selfNode advertiser members eligible epoch' selfNode' advertiser' members' eligible',
      BackendSnapshot.newWithMembers epoch selfNode advertiser members eligible = some s →
      BackendSnapshot.newWithMembers epoch' selfNode' advertiser' members' eligible' = some t →
      (∀ node, node ∈ eligible' ↔ node ∈ eligible) →
      target service flow t = target service flow s := by
  refine ⟨fun node => target_kept, fun node hs hmem hsub => ?_, fun added hsub hadd => ?_, ?_⟩
  · exact target_kept hs hmem fun other hoth hnew => absurd (hsub hoth) hnew
  · cases hs : target service flow s with
    | none =>
      cases ht : target service flow t with
      | none => exact .inl rfl
      | some node =>
        obtain ⟨hvalid, hmem, hmax⟩ := target_eq_some_iff.mp ht
        rcases mem_cons.mp (hadd hmem) with rfl | hold
        · exact .inr rfl
        · have := target_eq_some_iff.mpr ⟨hvalid, hold, fun other hoth => hmax other (hsub hoth)⟩
          cases hs.symm.trans this
    | some node =>
      obtain ⟨hvalid, hmem, hmax⟩ := target_eq_some_iff.mp hs
      by_cases hnew : added ∈ t.nodes ∧ ranksBelow service flow node added = true
      · have hlt := (ranksBelow_iff node added).mp hnew.2
        refine .inr (target_eq_some_iff.mpr ⟨hvalid, hnew.1, fun other hoth => ?_⟩)
        rcases mem_cons.mp (hadd hoth) with rfl | hold
        · exact le_rfl
        · exact (hmax other hold).trans hlt.le
      · refine .inl (target_kept hs (hsub hmem) fun other hoth hold hlt => ?_)
        obtain rfl := (mem_cons.mp (hadd hoth)).resolve_right hold
        exact hnew ⟨hoth, hlt⟩
  · intro _ _ _ _ eligible _ _ _ _ eligible' hs ht heq
    obtain ⟨-, -, -, hnodes⟩ := newWithMembers_spec hs
    obtain ⟨-, -, -, hnodes'⟩ := newWithMembers_spec ht
    refine target_congr fun node => ?_
    rw [hnodes, hnodes', Policy.mem_sortNodes, Policy.mem_sortNodes]
    exact heq node

/-- Two nodes with one score for `webFlow`. -/
def twins : Backend × Backend :=
  (⟨34269123594836709, [2, 0, 0, 0, 0, 1]⟩, ⟨14698597599834349659, [2, 0, 0, 0, 0, 2]⟩)

/-- A node of no higher score takes the flow if its number is greater. -/
theorem equal_score_moves_flow : ∃ s t : BackendSnapshot,
    BackendSnapshot.newWithMembers 1 1 none [twins.1] [twins.1.nodeId] = some s ∧
    BackendSnapshot.newWithMembers 2 1 none [twins.1, twins.2] [twins.1.nodeId, twins.2.nodeId] =
      some t ∧
    target webService webFlow s = some twins.1.nodeId ∧ twins.1.nodeId ∈ t.nodes ∧
    (∀ added ∈ t.nodes, added ∉ s.nodes → ¬ rendezvousScore webService webFlow twins.1.nodeId <
      rendezvousScore webService webFlow added) ∧
    target webService webFlow t ≠ some twins.1.nodeId := by
  refine ⟨⟨1, 1, none, [twins.1], [twins.1]⟩, ⟨2, 1, none, [twins.1, twins.2], [twins.1, twins.2]⟩,
    by decide +kernel, ?_, by decide +kernel, by decide +kernel, forall_mem_cons.mpr
      ⟨by decide +kernel, forall_mem_singleton.mpr (by decide +kernel)⟩, by decide +kernel⟩
  unfold newWithMembers
  rw [mergeSort_of_pairwise (by decide)]
  decide +kernel

end Charlotte.Ingress
