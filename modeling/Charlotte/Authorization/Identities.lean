import Charlotte.Authorization.Store
import Charlotte.Lib.Runs

/-!
# Occupants of address spaces

At any time one identity of an address space is bound, and the table keeps to its limit.
A generation that was accepted is not followed by a smaller one as long as no identity
has to make room for another address space.
-/

namespace Charlotte.Authorization

open Lib List Option AList

variable {κ α : Type}

theorem Table.keys_retain (table : Table κ α) (keep : κ → Bool) :
    (table.retain keep).keys = table.keys.filter keep := by
  simp only [Table.retain, AList.keys, List.keys, List.filter_map]
  rfl

namespace PolicyStore

variable {s s' : PolicyStore} {identity : DomainIdentity} {principal : PrincipalId} {roles : Roles}

theorem mem_keys_bind (s : PolicyStore) (identities : Table DomainIdentity IdentityRecord)
    (identity : DomainIdentity) (record : IdentityRecord) (known : DomainIdentity) :
    known ∈ (s.bind identities identity record).identities.keys ↔
      known = identity ∨ (known ∈ identities.keys ∧ known.asid ≠ identity.asid) := by
  simp only [bind, ← AList.mem_keys, AList.mem_insert]
  rw [AList.mem_keys, Table.keys_retain, mem_filter]
  simp [AList.mem_keys]

theorem length_keys_bind (s : PolicyStore) (identities : Table DomainIdentity IdentityRecord)
    (identity : DomainIdentity) (record : IdentityRecord) :
    (s.bind identities identity record).identities.keys.length =
      (identities.keys.filter fun known => known.asid != identity.asid).length + 1 := by
  simp only [bind, keys_insert, length_cons]
  rw [erase_of_not_mem, Table.keys_retain]
  rw [Table.keys_retain, mem_filter]
  simp

/-- Some identity of the address space is bound. -/
def Bound (s : PolicyStore) (asid : ℕ) : Prop := ∃ known ∈ s.identities.keys, known.asid = asid

/-- What an accepted binding does: nothing, or it replaces the occupant of the address space,
or it fills a free place, or the identity of another address space makes room. -/
theorem provision_spec (h : s.provisionIdentityFromSupervisor identity principal roles = .ok s') :
    (s' = s ∧ identity ∈ s.identities.keys) ∨ (identity ∉ s.identities.keys ∧
      (∀ known ∈ s.identities.keys, known.asid = identity.asid →
        known.generation ≤ identity.generation) ∧
      ((s.Bound identity.asid ∨ s.identities.keys.length < s.limits.identities) ∧
          s' = s.bind s.identities identity ⟨principal, roles⟩ ∨
        (¬ s.Bound identity.asid ∧ s.limits.identities ≤ s.identities.keys.length) ∧
          ∃ victim ∈ s.identities.keys,
            s' = s.bind (s.identities.erase victim) identity ⟨principal, roles⟩)) := by
  unfold provisionIdentityFromSupervisor at h
  cases hlk : s.identities.lookup identity with
  | some =>
    rw [hlk] at h
    simp only at h
    split at h
    · cases h
    · cases h
      have hmem := lookup_isSome.mp (isSome_of_eq_some hlk)
      exact .inl ⟨rfl, mem_keys.mp hmem⟩
  | none =>
    rw [hlk] at h
    simp only at h
    have hnew : identity ∉ s.identities.keys := fun hmem =>
      lookup_eq_none.mp hlk (mem_keys.mpr hmem)
    split at h
    · cases h
    rename_i hstl
    have hnewest : ∀ known ∈ s.identities.keys, known.asid = identity.asid →
        known.generation ≤ identity.generation := by
      intro known hkn hasid
      by_contra hlt
      refine hstl (any_eq_true.mpr ⟨known, hkn, ?_⟩)
      simp only [Bool.and_eq_true, beq_iff_eq, decide_eq_true_eq]
      exact ⟨hasid, Nat.lt_of_not_le hlt⟩
    refine .inr ⟨hnew, hnewest, ?_⟩
    have hbd : (s.identities.keys.any fun known => known.asid == identity.asid) = true ↔
        s.Bound identity.asid := by
      simp [Bound, List.any_eq_true]
    split at h
    · rename_i hfull
      simp only [Bool.and_eq_true, Bool.not_eq_true', decide_eq_true_eq] at hfull
      have hfree : ¬ s.Bound identity.asid := by
        rw [← hbd, hfull.1]
        exact Bool.false_ne_true
      split at h
      · cases h
      · rename_i victim hvictim
        cases h
        exact .inr ⟨⟨hfree, hfull.2⟩, victim, argmin_mem hvictim, rfl⟩
    · rename_i hroom
      cases h
      refine .inl ⟨?_, rfl⟩
      simp only [Bool.and_eq_true, Bool.not_eq_true', decide_eq_true_eq, not_and, not_le] at hroom
      by_cases hb : s.Bound identity.asid
      · exact .inl hb
      · exact .inr (hroom (Bool.eq_false_iff.mpr fun htrue => hb (hbd.mp htrue)))

/-! ### The table -/

/-- One identity per address space, and no more than the limit allows. -/
structure TableSound (s : PolicyStore) : Prop where
  single : ∀ known ∈ s.identities.keys, ∀ other ∈ s.identities.keys, known.asid = other.asid →
    known = other
  bounded : s.identities.keys.length ≤ s.limits.identities

theorem single_bind {identities : Table DomainIdentity IdentityRecord}
    (h : ∀ known ∈ identities.keys, ∀ other ∈ identities.keys, known.asid = other.asid → known = other)
    (record : IdentityRecord) : ∀ known ∈ (s.bind identities identity record).identities.keys,
      ∀ other ∈ (s.bind identities identity record).identities.keys, known.asid = other.asid →
        known = other := by
  intro known hkn other hoth hasid
  rw [mem_keys_bind] at hkn hoth
  rcases hkn with rfl | ⟨hkn, hne⟩
  · rcases hoth with rfl | ⟨-, hne⟩
    · rfl
    · exact absurd hasid.symm hne
  · rcases hoth with rfl | ⟨hoth, -⟩
    · exact absurd hasid hne
    · exact h known hkn other hoth hasid

theorem tableSound_provision (hs : s.TableSound)
    (h : s.provisionIdentityFromSupervisor identity principal roles = .ok s') : s'.TableSound := by
  rcases provision_spec h with ⟨rfl, -⟩ | ⟨_, -, ⟨hroom, rfl⟩ | ⟨⟨_, _⟩, victim, hvictim, rfl⟩⟩
  · exact hs
  · refine ⟨single_bind hs.single _, ?_⟩
    rw [length_keys_bind]
    have hlim : (s.bind s.identities identity ⟨principal, roles⟩).limits = s.limits := rfl
    rcases hroom with ⟨known, hkn, hasid⟩ | hroom
    · have hlt : (s.identities.keys.filter fun known => known.asid != identity.asid).length <
          s.identities.keys.length :=
        length_filter_lt_length_iff_exists.mpr ⟨known, hkn, by simp [hasid]⟩
      exact le_trans hlt hs.bounded
    · exact lt_of_le_of_lt (length_filter_le _ _) hroom
  · have hsub : ∀ known ∈ (s.identities.erase victim).keys, known ∈ s.identities.keys := by
      intro known hkn
      rw [keys_erase] at hkn
      exact mem_of_mem_erase hkn
    refine ⟨single_bind (fun known hkn other hoth => hs.single known (hsub known hkn) other
      (hsub other hoth)) _, ?_⟩
    rw [length_keys_bind]
    have hlen : (s.identities.erase victim).keys.length = s.identities.keys.length - 1 := by
      rw [keys_erase]
      exact length_erase_of_mem hvictim
    have hpos : 0 < s.identities.keys.length := length_pos_of_mem hvictim
    have hfilter := length_filter_le (fun known => known.asid != identity.asid)
      (s.identities.erase victim).keys
    have hboun := hs.bounded
    show _ ≤ s.limits.identities
    omega

/-! ### Calls that bind identities -/

/-- The identity that the call binds, if it gets so far. -/
def accepted (s : PolicyStore) : Operation → Option DomainIdentity
  | .provision identity principal roles =>
    match s.provisionIdentityFromSupervisor identity principal roles with
    | .ok _ => some identity
    | .error _ => none
  | .authorizeForAdmin actor target principal service requested =>
    match s.admitTarget actor target principal service requested with
    | .ok _ => some target
    | .error _ => none
  | _ => none

end PolicyStore

/-- The identity that a call of a supervisor or an administrator names. -/
def Operation.subject : Operation → Option DomainIdentity
  | .provision identity _ _ => some identity
  | .authorizeForAdmin _ target _ _ _ => some target
  | _ => none

namespace PolicyStore

variable {s s' : PolicyStore} {operation : Operation} {identity : DomainIdentity}

theorem provision_of_admitTarget {actor target : DomainIdentity} {principal : PrincipalId}
    {service : Bytes} {requested : AuthorizationRights}
    (h : s.admitTarget actor target principal service requested = .ok s') :
    s.provisionIdentityFromSupervisor target principal .none = .ok s' := by
  simp only [admitTarget, bind_eq_ok] at h
  obtain ⟨_, -, _, -, _, -, h⟩ := h
  exact h

/-- A call that names an identity binds it by `provision`, or leaves the table as it is. -/
theorem step_subject (hsubj : operation.subject = some identity) :
    (s.accepted operation = some identity ∧ ∃ principal roles s',
      s.provisionIdentityFromSupervisor identity principal roles = .ok s' ∧ (s.step operation).2 = s') ∨
    (s.accepted operation = none ∧ (s.step operation).2 = s) := by
  cases operation <;> cases hsubj
  case provision principal roles =>
    unfold accepted step
    simp only
    cases h : s.provisionIdentityFromSupervisor identity principal roles with
    | ok s' => exact .inl ⟨rfl, principal, roles, s', h, rfl⟩
    | error => exact .inr ⟨rfl, rfl⟩
  case authorizeForAdmin actor principal service requested =>
    unfold accepted step authorizeForAdmin
    simp only
    cases h : s.admitTarget actor identity principal service requested with
    | ok s' => exact .inl ⟨rfl, principal, .none, s', provision_of_admitTarget h, rfl⟩
    | error => exact .inr ⟨rfl, rfl⟩

theorem tableSound_step (hs : s.TableSound) (hsubj : operation.subject.isSome = true) :
    (s.step operation).2.TableSound := by
  obtain ⟨_, hidn⟩ := isSome_iff_exists.mp hsubj
  rcases step_subject (s := s) hidn with ⟨-, _, _, _, hprov, hstep⟩ | ⟨-, hstep⟩
  · rw [hstep]
    exact tableSound_provision hs hprov
  · rw [hstep]
    exact hs

theorem tableSound_initial (h : s.Initial) : s.TableSound := by
  have hemp : ∀ limits, (empty limits).TableSound := fun limits =>
    ⟨fun _ hkn => absurd hkn (not_mem_nil), Nat.zero_le _⟩
  rcases h with rfl | ⟨limits, hlim⟩
  · exact hemp _
  · unfold withLimits at hlim
    split at hlim
    · cases hlim
      exact hemp limits
    · cases hlim

/-- A call finds the address space that it names occupied, or a free place in the table. -/
def HasRoom (s : PolicyStore) (operation : Operation) : Prop :=
  ∀ identity, operation.subject = some identity →
    s.Bound identity.asid ∨ s.identities.keys.length < s.limits.identities

/-- The occupant of the address space is at least of this generation. -/
def Occupied (s : PolicyStore) (asid generation : ℕ) : Prop :=
  ∃ known ∈ s.identities.keys, known.asid = asid ∧ generation ≤ known.generation

theorem occupied_step {asid generation : ℕ} (h : s.Occupied asid generation)
    (hsubj : operation.subject.isSome = true) (hroom : s.HasRoom operation) :
    (s.step operation).2.Occupied asid generation := by
  obtain ⟨known, hkn, hasid, hgen⟩ := h
  obtain ⟨identity, hidn⟩ := isSome_iff_exists.mp hsubj
  rcases step_subject (s := s) hidn with ⟨-, _, _, _, hprov, hstep⟩ | ⟨-, hstep⟩
  · rw [hstep]
    rcases provision_spec hprov with ⟨rfl, -⟩ | ⟨-, hnewest, ⟨-, rfl⟩ | ⟨⟨hfree, hfull⟩, -⟩⟩
    · exact ⟨known, hkn, hasid, hgen⟩
    · by_cases hsame : known.asid = identity.asid
      · refine ⟨identity, (mem_keys_bind _ _ _ _ _).mpr (.inl rfl), hsame.symm.trans hasid, ?_⟩
        exact le_trans hgen (hnewest known hkn hsame)
      · exact ⟨known, (mem_keys_bind _ _ _ _ _).mpr (.inr ⟨hkn, hsame⟩), hasid, hgen⟩
    · rcases hroom identity hidn with hbd | hlt
      · exact absurd hbd hfree
      · exact absurd hlt (not_lt.mpr hfull)
  · rw [hstep]
    exact ⟨known, hkn, hasid, hgen⟩

theorem accepted_subject (h : s.accepted operation = some identity) :
    operation.subject = some identity := by
  cases operation <;> unfold accepted at h
  case provision =>
    simp only at h
    split at h
    · exact h
    · cases h
  case authorizeForAdmin =>
    simp only at h
    split at h
    · exact h
    · cases h
  all_goals cases h

theorem occupied_of_accepted (h : s.accepted operation = some identity) :
    (s.step operation).2.Occupied identity.asid identity.generation := by
  rcases step_subject (s := s) (accepted_subject h) with ⟨-, _, _, s', hprov, hstep⟩ | ⟨hnone, -⟩
  · rw [hstep]
    have hmem : identity ∈ s'.identities.keys := by
      rcases provision_spec hprov with ⟨rfl, hmem⟩ | ⟨-, -, ⟨-, rfl⟩ | ⟨-, _, -, rfl⟩⟩
      · exact hmem
      · exact (mem_keys_bind _ _ _ _ _).mpr (.inl rfl)
      · exact (mem_keys_bind _ _ _ _ _).mpr (.inl rfl)
    exact ⟨identity, hmem, rfl, le_rfl⟩
  · cases hnone.symm.trans h

/-- A generation below that of the occupant is refused. -/
theorem generation_le_of_accepted (hs : s.TableSound) {generation : ℕ}
    (hoccu : s.Occupied identity.asid generation) (h : s.accepted operation = some identity) :
    generation ≤ identity.generation := by
  obtain ⟨known, hkn, hasid, hgen⟩ := hoccu
  rcases step_subject (s := s) (accepted_subject h) with ⟨-, _, _, _, hprov, -⟩ | ⟨hnone, -⟩
  · rcases provision_spec hprov with ⟨-, hmem⟩ | ⟨-, hnewest, -⟩
    · rwa [← hs.single known hkn identity hmem hasid]
    · exact le_trans hgen (hnewest known hkn hasid)
  · cases hnone.symm.trans h

/-- In every sequence of calls that bind identities one identity of an address space is bound
and the table keeps to its limit; if no call for a new address space finds the table full, no
generation is accepted after a larger one. -/
theorem generations_never_go_back (hinitial : s.Initial) (operations : List Operation)
    (hcalls : ∀ operation ∈ operations, operation.subject.isSome = true) :
    (∀ count, (s.run (operations.take count)).TableSound) ∧
    ((∀ count operation, operations[count]? = some operation →
        (s.run (operations.take count)).HasRoom operation) →
      ∀ first second earlier later old new, first < second →
        operations[first]? = some earlier → operations[second]? = some later →
        (s.run (operations.take first)).accepted earlier = some old →
        (s.run (operations.take second)).accepted later = some new →
        old.asid = new.asid → old.generation ≤ new.generation) := by
  have hsd : ∀ count, (s.run (operations.take count)).TableSound := fun count =>
    foldl_take_invariant (tableSound_initial hinitial) (fun index operation hop hs =>
      tableSound_step hs (hcalls operation (mem_of_getElem? hop))) count
  refine ⟨hsd, fun hroom first second earlier later old new hlt hearl hlat hold hnew hasid => ?_⟩
  -- The occupant stays at least as new as the accepted generation from `first` on.
  have hoccu : ∀ gap, first + 1 + gap ≤ operations.length →
      (s.run (operations.take (first + 1 + gap))).Occupied old.asid old.generation := by
    intro gap
    induction gap with
    | zero =>
      intro _
      rw [add_zero, take_add_one, hearl]
      simp only [run, toList_some, foldl_append, foldl_cons, foldl_nil]
      exact occupied_of_accepted hold
    | succ gap ih =>
      intro hlen
      have hget : operations[first + 1 + gap]? = some operations[first + 1 + gap] :=
        getElem?_eq_getElem (by omega)
      rw [← add_assoc, take_add_one, hget]
      simp only [run, toList_some, foldl_append, foldl_cons, foldl_nil]
      exact occupied_step (ih (by omega)) (hcalls _ (mem_of_getElem? hget)) (hroom _ _ hget)
  have hbd : second < operations.length := (List.getElem?_eq_some_iff.mp hlat).1
  obtain ⟨gap, rfl⟩ := Nat.exists_eq_add_of_le (Nat.succ_le_of_lt hlt)
  have hhere := hoccu gap (by omega)
  rw [hasid] at hhere
  exact generation_le_of_accepted (hsd _) hhere hnew

/-- A binding of an ordinary domain. -/
def occupy (asid generation : ℕ) (hasid : asid ≠ 0) (hgeneration : generation ≠ 0) : Operation :=
  .provision ⟨asid, generation, hasid, hgeneration⟩ ⟨1, by decide⟩ .none

theorem generations_never_go_back_renewed :
    (new.run [occupy 1 2 (by decide) (by decide)]).TableSound ∧
      (⟨1, 2, by decide, by decide⟩ : DomainIdentity).generation ≤
        (⟨1, 3, by decide, by decide⟩ : DomainIdentity).generation := by
  let calls := [occupy 1 2 (by decide) (by decide), occupy 1 3 (by decide) (by decide)]
  have hcs : ∀ operation ∈ calls, operation.subject.isSome = true := by decide
  obtain ⟨hsd, hforw⟩ := generations_never_go_back (.inl rfl) calls hcs
  refine ⟨hsd 1, hforw ?_ 0 1 _ _ _ _ zero_lt_one rfl rfl (by decide) (by decide) rfl⟩
  intro count operation hop identity _
  refine .inr ?_
  match count with
  | 0 => decide
  | 1 => decide
  | count + 2 => cases hop

/-- In a table of one place the second occupant of address space 1 makes room for another
address space; then the first one is accepted again. -/
theorem stale_generation_accepted :
    ∃ s limits, withLimits limits = .ok s ∧
      (s.run []).accepted (occupy 1 2 (by decide) (by decide)) = some ⟨1, 2, by decide, by decide⟩ ∧
      (s.run [occupy 1 2 (by decide) (by decide), occupy 2 1 (by decide) (by decide)]).accepted
        (occupy 1 1 (by decide) (by decide)) = some ⟨1, 1, by decide, by decide⟩ :=
  ⟨_, ⟨1, 1, 1, 1, 1⟩, rfl, by decide, by decide⟩

end PolicyStore

end Charlotte.Authorization
