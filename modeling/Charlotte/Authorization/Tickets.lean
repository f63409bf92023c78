import Charlotte.Authorization.Identities

/-!
# Tickets convey current authority

A ticket records the generation of its service and the version of its rule. Both only
grow, and they grow with every change, so that a ticket that is still redeemable was
issued after the last change of either.
-/

namespace Charlotte.Authorization

open Lib List Option AList

namespace PolicyStore

variable {s s' : PolicyStore} {operation : Operation}

/-! ### What the calls check and change -/

variable {service : Bytes} {binding : ServiceBinding}

theorem activeBinding_ok : s.activeBinding service = .ok binding ↔
      s.services.lookup service = some binding ∧ binding.active = true := by
  unfold activeBinding
  rw [okOr_bind_ok]
  constructor
  · rintro ⟨_, hlk, h⟩
    obtain ⟨hact, h⟩ := ensure_bind_ok.mp h
    cases h
    exact ⟨hlk, hact⟩
  · rintro ⟨hlk, hact⟩
    exact ⟨binding, hlk, ensure_bind_ok.mpr ⟨hact, rfl⟩⟩

/-- The authority that the caller has over a service at this moment. -/
structure Authority (s : PolicyStore) (caller : DomainIdentity) (service : Bytes)
    (rights : AuthorizationRights) (principal : PrincipalId) (binding : ServiceBinding)
    (rule : PolicyRule) : Prop where
  bound : s.principalFor caller = some principal
  published : s.services.lookup service = some binding
  active : binding.active = true
  ruled : s.policies.lookup (principal, service) = some rule
  allowed : rule.allowed.contains rights = true
  ceiling : binding.ceiling.contains rights = true

variable {caller : DomainIdentity} {requested : AuthorizationRights}

theorem decide?_ok {decision : Decision} : s.decide? caller service requested = .ok decision ↔
      requested.isEmpty = false ∧ (service ≠ [] ∧ service.length ≤ s.limits.serviceIdBytes) ∧
      ∃ principal binding rule, s.Authority caller service requested principal binding rule ∧
        decision = ⟨principal, service, binding.generation, rule.version, requested⟩ := by
  simp only [decide?, validateService, bind_eq_ok, ensure_eq_ok, okOr_eq_ok, activeBinding_ok,
    AuthorizationRights.contains_intersection]
  constructor
  · rintro ⟨_, hemp, _, hval, principal, hprin, binding, ⟨hsvc, hact⟩, rule, hrule, _, ⟨hald, hceil⟩, h⟩
    cases h
    exact ⟨hemp, hval, principal, binding, rule, ⟨hprin, hsvc, hact, hrule, hald, hceil⟩, rfl⟩
  · rintro ⟨hemp, hval, principal, binding, rule, h, rfl⟩
    exact ⟨(), hemp, (), hval, principal, h.bound, binding, ⟨h.published, h.active⟩, rule, h.ruled,
      (), ⟨h.allowed, h.ceiling⟩, rfl⟩

theorem issueTicket_ok {ticket : TicketId} : s.issueTicket caller service requested = .ok (ticket, s') ↔
      ∃ decision, s.decide? caller service requested = .ok decision ∧
        s.tickets.keys.length < s.limits.tickets ∧ s.nextTicket + 1 < 2 ^ 64 ∧
        ticket = s.nextTicket ∧ s' = { s with
          nextTicket := s.nextTicket + 1
          tickets := s.tickets.insert s.nextTicket decision } := by
  simp only [issueTicket, bind_eq_ok, ensure_eq_ok]
  constructor
  · rintro ⟨decision, hdcs, _, hcap, _, hids, h⟩
    cases h
    exact ⟨decision, hdcs, hcap, hids, rfl, rfl⟩
  · rintro ⟨decision, hdcs, hcap, hids, rfl, rfl⟩
    exact ⟨decision, hdcs, (), hcap, (), hids, rfl⟩

variable {grant : AuthorizedGrant}

theorem revalidate_ok {decision : Decision} :
    s.revalidate caller decision = .ok grant ↔ ∃ binding rule,
        s.Authority caller decision.service decision.rights decision.principal binding rule ∧
        binding.generation = decision.serviceGeneration ∧ rule.version = decision.policyVersion ∧
        grant = ⟨decision.principal, binding.generation, rule.version, decision.rights⟩ := by
  simp only [revalidate, bind_eq_ok, ensure_eq_ok, okOr_eq_ok, activeBinding_ok,
    AuthorizationRights.contains_intersection]
  constructor
  · rintro ⟨_, hprin, _, rfl, binding, ⟨hsvc, hact⟩, _, hgen, rule, hrule, _, hver, _, ⟨hald, hceil⟩, h⟩
    cases h
    exact ⟨binding, rule, ⟨hprin, hsvc, hact, hrule, hald, hceil⟩, hgen, hver, rfl⟩
  · rintro ⟨binding, rule, h, hgen, hver, rfl⟩
    exact ⟨decision.principal, h.bound, (), rfl, binding, ⟨h.published, h.active⟩, (), hgen, rule,
      h.ruled, (), hver, (), ⟨h.allowed, h.ceiling⟩, rfl⟩

/-- What is asked at once is granted under the checks of the issue alone. -/
theorem authorizeNow_ok : (∃ grant, (s.authorizeNow caller service requested).1 = .ok grant) ↔
      requested.isEmpty = false ∧ (service ≠ [] ∧ service.length ≤ s.limits.serviceIdBytes) ∧
      (∃ principal binding rule, s.Authority caller service requested principal binding rule) ∧
      s.tickets.keys.length < s.limits.tickets ∧ s.nextTicket + 1 < 2 ^ 64 := by
  unfold authorizeNow
  constructor
  · rintro ⟨_, hgrt⟩
    split at hgrt
    · cases hgrt
    · rename_i hissue
      obtain ⟨_, hdcs, hcap, hids, -, -⟩ := issueTicket_ok.mp hissue
      obtain ⟨hemp, hval, principal, binding, rule, h, -⟩ := decide?_ok.mp hdcs
      exact ⟨hemp, hval, ⟨principal, binding, rule, h⟩, hcap, hids⟩
  · rintro ⟨hemp, hval, ⟨principal, binding, rule, h⟩, hcap, hids⟩
    have hdcs := decide?_ok.mpr ⟨hemp, hval, principal, binding, rule, h, rfl⟩
    rw [issueTicket_ok.mpr ⟨_, hdcs, hcap, hids, rfl, rfl⟩]
    simp only [redeemTicket, lookup_insert]
    refine ⟨_, revalidate_ok.mpr ⟨binding, rule, ?_, rfl, rfl, rfl⟩⟩
    exact ⟨h.bound, h.published, h.active, h.ruled, h.allowed, h.ceiling⟩

/-! ### Events -/

/-- The call publishes or unpublishes the service. -/
def ChangesService (s : PolicyStore) (service : Bytes) : Operation → Prop
  | .publish actor service' ceiling =>
    service' = service ∧ ∃ result, s.publishService actor service' ceiling = .ok result
  | .unpublish actor service' expectedGeneration =>
    service' = service ∧ ∃ result, s.unpublishService actor service' expectedGeneration = .ok result
  | _ => False

/-- The call sets the rule of a principal for a service. -/
def ChangesRule (s : PolicyStore) (principal : PrincipalId) (service : Bytes) : Operation → Prop
  | .setPolicy actor subject service' allowed expectedVersion =>
    (subject, service') = (principal, service) ∧
      ∃ result, s.setPolicy actor subject service' allowed expectedVersion = .ok result
  | _ => False

/-- The call uses the ticket up: a redemption that finds it, or its cancellation. -/
def Consumes (s : PolicyStore) (ticket : TicketId) : Operation → Prop
  | .redeem caller ticket' =>
    ticket' = ticket ∧ (s.redeemTicket caller ticket').1 ≠ .error .ticketMissing
  | .cancel caller ticket' => ticket' = ticket ∧ ∃ result, s.cancelTicket caller ticket' = .ok result
  | _ => False

variable {principal : PrincipalId}

theorem frame_provision {identity : DomainIdentity} {roles : Roles}
    (h : s.provisionIdentityFromSupervisor identity principal roles = .ok s') :
    s'.limits = s.limits ∧ s'.services = s.services ∧ s'.policies = s.policies ∧
      s'.tickets = s.tickets ∧ s'.nextTicket = s.nextTicket := by
  unfold provisionIdentityFromSupervisor at h
  split at h
  · split at h
    · cases h
    · cases h
      exact ⟨rfl, rfl, rfl, rfl, rfl⟩
  · split at h
    · cases h
    split at h
    · split at h
      · cases h
      · cases h
        exact ⟨rfl, rfl, rfl, rfl, rfl⟩
    · cases h
      exact ⟨rfl, rfl, rfl, rfl, rfl⟩

/-- Everything that a call can do to services, rules and tickets. -/
inductive Does (s : PolicyStore) : Operation → Except AuthorizationError Answer → PolicyStore → Prop
  /-- The call fails, or changes identities only. -/
  | other {operation answer s'} (hlimits : s'.limits = s.limits) (hservices : s'.services = s.services)
      (hpolicies : s'.policies = s.policies) (htickets : s'.tickets = s.tickets)
      (hnext : s'.nextTicket = s.nextTicket) (hservice : ∀ service, ¬ s.ChangesService service operation)
      (hrule : ∀ principal service, ¬ s.ChangesRule principal service operation)
      (hticket : ∀ ticket, ¬ s.Consumes ticket operation)
      (hanswer : ∀ ticket, answer ≠ .ok (.ticket ticket)) : Does s operation answer s'
  | publish {actor service ceiling generation} (hvalid : s.validateService service = .ok ())
      (hgeneration : s.nextGeneration service = .ok generation) :
      Does s (.publish actor service ceiling) (.ok (.binding ⟨generation, ceiling, true⟩))
        { s with services := s.services.insert service ⟨generation, ceiling, true⟩ }
  | unpublish {actor service binding} (hbinding : s.services.lookup service = some binding) :
      Does s (.unpublish actor service binding.generation) (.ok .done)
        { s with services := s.services.insert service ⟨binding.generation, .none, false⟩ }
  | setPolicy {actor subject service allowed version}
      (hversion : ((s.policies.lookup (subject, service)).map (·.version)).getD 0 = version) :
      Does s (.setPolicy actor subject service allowed version) (.ok (.rule ⟨allowed, version + 1⟩))
        { s with policies := s.policies.insert (subject, service) ⟨allowed, version + 1⟩ }
  | issue {caller service requested decision}
      (hdecision : s.decide? caller service requested = .ok decision) :
      Does s (.issue caller service requested) (.ok (.ticket s.nextTicket)) { s with
        nextTicket := s.nextTicket + 1
        tickets := s.tickets.insert s.nextTicket decision }
  | redeem {caller ticket decision} (hlookup : s.tickets.lookup ticket = some decision) :
      Does s (.redeem caller ticket)
        (({ s with tickets := s.tickets.erase ticket }.revalidate caller decision).map
          .grant)
        { s with tickets := s.tickets.erase ticket }
  | cancel {caller ticket decision} (hlookup : s.tickets.lookup ticket = some decision) :
      Does s (.cancel caller ticket) (.ok .done) { s with tickets := s.tickets.erase ticket }
  | authorizeNow {caller service requested decision}
      {answer : Except AuthorizationError AuthorizedGrant}
      (hdecision : s.decide? caller service requested = .ok decision) :
      Does s (.authorizeNow caller service requested) (answer.map .grant) { s with
        nextTicket := s.nextTicket + 1
        tickets := (s.tickets.insert s.nextTicket decision).erase s.nextTicket }

theorem does_fail {error : AuthorizationError}
    (hsvc : ∀ service, ¬ s.ChangesService service operation)
    (hrule : ∀ principal service, ¬ s.ChangesRule principal service operation)
    (htic : ∀ ticket, ¬ s.Consumes ticket operation) : s.Does operation (.error error) s :=
  .other rfl rfl rfl rfl rfl hsvc hrule htic fun _ => nofun

/-- The step of an operation is one of those. -/
def Stepped (s : PolicyStore) (operation : Operation) : Prop :=
  s.Does operation (s.step operation).1 (s.step operation).2

variable (actor : DomainIdentity)

theorem does_publish (service : Bytes) (ceiling : AuthorizationRights) :
    s.Stepped (.publish actor service ceiling) := by
  simp only [Stepped, step]
  cases h : s.publishService actor service ceiling with
  | error =>
    refine does_fail ?_ (fun _ _ => id) (fun _ => id)
    rintro _ ⟨-, _, hres⟩
    cases h.symm.trans hres
  | ok =>
    simp only [publishService, bind_eq_ok] at h
    obtain ⟨_, -, _, hval, _, -, _, -, _, hgen, h⟩ := h
    cases h
    exact .publish hval hgen

theorem does_unpublish (service : Bytes) (expectedGeneration : ℕ) :
    s.Stepped (.unpublish actor service expectedGeneration) := by
  simp only [Stepped, step]
  cases h : s.unpublishService actor service expectedGeneration with
  | error =>
    refine does_fail ?_ (fun _ _ => id) (fun _ => id)
    rintro _ ⟨-, _, hres⟩
    cases h.symm.trans hres
  | ok =>
    simp only [unpublishService, bind_eq_ok, okOr_eq_ok, ensure_eq_ok] at h
    obtain ⟨_, -, _, hbd, _, -, _, rfl, h⟩ := h
    cases h
    exact .unpublish hbd

theorem does_setPolicy (subject : PrincipalId) (service : Bytes)
    (allowed : AuthorizationRights) (expectedVersion : ℕ) :
    s.Stepped (.setPolicy actor subject service allowed expectedVersion) := by
  simp only [Stepped, step]
  cases h : s.setPolicy actor subject service allowed expectedVersion with
  | error =>
    refine does_fail (fun _ => id) ?_ (fun _ => id)
    rintro _ _ ⟨-, _, hres⟩
    cases h.symm.trans hres
  | ok =>
    simp only [setPolicy, bind_eq_ok, ensure_eq_ok] at h
    obtain ⟨_, -, _, -, _, -, _, hver, _, -, h⟩ := h
    cases h
    rw [hver]
    exact .setPolicy hver

theorem does_issue (caller : DomainIdentity) (service : Bytes) (requested : AuthorizationRights) :
    s.Stepped (.issue caller service requested) := by
  simp only [Stepped, step]
  cases h : s.issueTicket caller service requested with
  | error => exact does_fail (fun _ => id) (fun _ _ => id) (fun _ => id)
  | ok result =>
    obtain ⟨_, _⟩ := result
    obtain ⟨_, hdcs, -, -, rfl, rfl⟩ := issueTicket_ok.mp h
    exact .issue hdcs

theorem does_redeem (caller : DomainIdentity) (ticket : TicketId) :
    s.Stepped (.redeem caller ticket) := by
  simp only [Stepped, step, redeemTicket]
  cases h : s.tickets.lookup ticket with
  | none =>
    refine does_fail (fun _ => id) (fun _ _ => id) ?_
    rintro _ ⟨-, hfnd⟩
    exact hfnd (by rw [redeemTicket, h])
  | some => exact .redeem h

theorem does_cancel (caller : DomainIdentity) (ticket : TicketId) :
    s.Stepped (.cancel caller ticket) := by
  simp only [Stepped, step]
  cases h : s.cancelTicket caller ticket with
  | error =>
    refine does_fail (fun _ => id) (fun _ _ => id) ?_
    rintro _ ⟨-, _, hres⟩
    cases h.symm.trans hres
  | ok =>
    simp only [cancelTicket, bind_eq_ok, okOr_eq_ok] at h
    obtain ⟨_, -, _, hlk, _, -, h⟩ := h
    cases h
    exact .cancel hlk

theorem does_authorizeNow (caller : DomainIdentity) (service : Bytes)
    (requested : AuthorizationRights) : s.Stepped (.authorizeNow caller service requested) := by
  simp only [Stepped, step, authorizeNow]
  cases h : s.issueTicket caller service requested with
  | error => exact does_fail (fun _ => id) (fun _ _ => id) (fun _ => id)
  | ok result =>
    obtain ⟨_, _⟩ := result
    obtain ⟨_, hdcs, -, -, rfl, rfl⟩ := issueTicket_ok.mp h
    simp only [redeemTicket, lookup_insert]
    exact .authorizeNow hdcs

theorem does_step (operation : Operation) :
    s.Does operation (s.step operation).1 (s.step operation).2 := by
  cases operation with
  | provision identity principal roles =>
    simp only [step]
    cases h : s.provisionIdentityFromSupervisor identity principal roles with
    | error => exact does_fail (fun _ => id) (fun _ _ => id) (fun _ => id)
    | ok s' =>
      obtain ⟨hlim, hsvcs, hpols, htics, hnext⟩ := frame_provision h
      exact .other hlim hsvcs hpols htics hnext (fun _ => id) (fun _ _ => id)
        (fun _ => id) (fun _ => nofun)
  | remove =>
    exact .other rfl rfl rfl rfl rfl (fun _ => id) (fun _ _ => id) (fun _ => id) (fun _ => nofun)
  | publish => exact does_publish ..
  | unpublish => exact does_unpublish ..
  | setPolicy =>
    exact does_setPolicy ..
  | issue => exact does_issue ..
  | redeem => exact does_redeem ..
  | cancel => exact does_cancel ..
  | authorizeNow => exact does_authorizeNow ..
  | authorizeForAdmin actor target principal service requested =>
    simp only [step, authorizeForAdmin]
    cases h : s.admitTarget actor target principal service requested with
    | error => exact does_fail (fun _ => id) (fun _ _ => id) (fun _ => id)
    | ok s' =>
      obtain ⟨hlim, hsvcs, hpols, htics, hnext⟩ := frame_provision (provision_of_admitTarget h)
      refine .other hlim hsvcs hpols htics hnext (fun _ => id) (fun _ _ => id)
        (fun _ => id) (fun ticket => ?_)
      simp only [Prod.map_fst]
      cases s'.grantActive principal service requested <;> exact nofun

/-! ### Histories -/

/-- The names of published services are valid, and tickets are numbered in the order in which
they are issued. -/
structure Numbered (s : PolicyStore) : Prop where
  named : ∀ service binding, s.services.lookup service = some binding →
    service ≠ [] ∧ service.length ≤ s.limits.serviceIdBytes
  below : ∀ ticket decision, s.tickets.lookup ticket = some decision → ticket < s.nextTicket

theorem lookup_insert_cases {κ α : Type} [DecidableEq κ] {table : Table κ α} {key key' : κ} {a b : α}
    (h : (table.insert key a).lookup key' = some b) :
    (key' = key ∧ b = a) ∨ (key' ≠ key ∧ table.lookup key' = some b) := by
  by_cases hkey : key' = key
  · subst hkey
    rw [lookup_insert] at h
    exact .inl ⟨rfl, (some.inj h).symm⟩
  · rw [lookup_insert_ne hkey] at h
    exact .inr ⟨hkey, h⟩

theorem lookup_erase_some {κ α : Type} [DecidableEq κ] {table : Table κ α} {key key' : κ} {b : α}
    (h : (table.erase key).lookup key' = some b) : key' ≠ key ∧ table.lookup key' = some b := by
  by_cases hkey : key' = key
  · subst hkey
    rw [lookup_erase] at h
    cases h
  · rw [lookup_erase_ne hkey] at h
    exact ⟨hkey, h⟩

theorem numbered_step (hs : s.Numbered) (operation : Operation) :
    (s.step operation).2.Numbered ∧ s.nextTicket ≤ (s.step operation).2.nextTicket ∧
      ∀ ticket, (s.step operation).1 = .ok (.ticket ticket) →
        ticket = s.nextTicket ∧ s.nextTicket < (s.step operation).2.nextTicket := by
  have hdoes := s.does_step operation
  generalize (s.step operation).1 = answer at hdoes ⊢
  generalize (s.step operation).2 = s' at hdoes ⊢
  cases hdoes with
  | other hlim hsvcs hpols htics hnext hsvc hrule htic hans =>
    refine ⟨⟨?_, ?_⟩, hnext.ge, fun ticket h => absurd h (hans ticket)⟩
    · rw [hlim, hsvcs]
      exact hs.named
    · rw [htics, hnext]
      exact hs.below
  | publish hval =>
    refine ⟨⟨fun service binding h => ?_, hs.below⟩, le_rfl, fun _ => nofun⟩
    rcases lookup_insert_cases h with ⟨rfl, -⟩ | ⟨-, h⟩
    · exact ensure_eq_ok.mp hval
    · exact hs.named service binding h
  | unpublish hbd =>
    refine ⟨⟨fun service binding h => ?_, hs.below⟩, le_rfl, fun _ => nofun⟩
    rcases lookup_insert_cases h with ⟨rfl, -⟩ | ⟨-, h⟩
    · exact hs.named _ _ hbd
    · exact hs.named service binding h
  | setPolicy => exact ⟨⟨hs.named, hs.below⟩, le_rfl, fun _ => nofun⟩
  | issue =>
    refine ⟨⟨hs.named, fun ticket decision h => ?_⟩, Nat.le_succ _, fun ticket h => ?_⟩
    · rcases lookup_insert_cases h with ⟨rfl, -⟩ | ⟨-, h⟩
      · exact Nat.lt_succ_self _
      · exact Nat.lt_succ_of_lt (hs.below ticket decision h)
    · cases h
      exact ⟨rfl, Nat.lt_succ_self _⟩
  | @redeem caller ticket decision hlk =>
    refine ⟨⟨hs.named, fun other decision' h => ?_⟩, le_rfl, fun other h => ?_⟩
    · exact hs.below other decision' (lookup_erase_some h).2
    · generalize { s with tickets := s.tickets.erase ticket }.revalidate caller
        decision = result at h
      cases result <;> cases h
  | cancel =>
    refine ⟨⟨hs.named, fun other decision h => ?_⟩, le_rfl, fun _ => nofun⟩
    exact hs.below other decision (lookup_erase_some h).2
  | @authorizeNow caller service requested decision answer hdcs =>
    refine ⟨⟨hs.named, fun other decision' h => ?_⟩, Nat.le_succ _, fun other h => ?_⟩
    · obtain ⟨hne, h⟩ := lookup_erase_some h
      rcases lookup_insert_cases h with ⟨rfl, -⟩ | ⟨-, h⟩
      · exact absurd rfl hne
      · exact Nat.lt_succ_of_lt (hs.below other decision' h)
    · cases answer <;> cases h

/-- The generation of a service grows with every publication, and a service that is taken back
stays inactive until the next one. -/
theorem service_step (operation : Operation) (h : s.services.lookup service = some binding) :
    ∃ binding', (s.step operation).2.services.lookup service = some binding' ∧
      binding.generation ≤ binding'.generation ∧
      (binding' = binding ∧ ¬ s.ChangesService service operation ∨
        (binding'.generation = binding.generation → binding'.active = false)) := by
  have hdoes := s.does_step operation
  generalize (s.step operation).1 = answer at hdoes
  generalize (s.step operation).2 = s' at hdoes ⊢
  cases hdoes with
  | other hlim hsvcs hpols htics hnext hsvc =>
    exact ⟨binding, hsvcs ▸ h, le_rfl, .inl ⟨rfl, hsvc service⟩⟩
  | @publish actor service' ceiling generation hval hgen =>
    by_cases hsame : service = service'
    · subst hsame
      refine ⟨_, lookup_insert _, ?_⟩
      unfold nextGeneration at hgen
      rw [h] at hgen
      simp only at hgen
      split at hgen
      · cases hgen
        exact ⟨Nat.le_succ _, .inr fun heq => absurd heq (Nat.succ_ne_self _)⟩
      · cases hgen
    · refine ⟨binding, (lookup_insert_ne hsame).trans h, le_rfl, .inl ⟨rfl, ?_⟩⟩
      rintro ⟨rfl, -⟩
      exact hsame rfl
  | @unpublish actor service' binding' hbd =>
    by_cases hsame : service = service'
    · subst hsame
      cases h.symm.trans hbd
      exact ⟨_, lookup_insert _, le_rfl, .inr fun _ => rfl⟩
    · refine ⟨binding, (lookup_insert_ne hsame).trans h, le_rfl, .inl ⟨rfl, ?_⟩⟩
      rintro ⟨rfl, -⟩
      exact hsame rfl
  | _ => exact ⟨binding, h, le_rfl, .inl ⟨rfl, id⟩⟩

theorem rule_step (operation : Operation)
    {rule : PolicyRule} (h : s.policies.lookup (principal, service) = some rule) :
    ∃ rule', (s.step operation).2.policies.lookup (principal, service) = some rule' ∧
      (rule' = rule ∧ ¬ s.ChangesRule principal service operation ∨ rule.version < rule'.version) := by
  have hdoes := s.does_step operation
  generalize (s.step operation).1 = answer at hdoes
  generalize (s.step operation).2 = s' at hdoes ⊢
  cases hdoes with
  | other hlim hsvcs hpols htics hnext hsvc hrule =>
    exact ⟨rule, hpols ▸ h, .inl ⟨rfl, hrule principal service⟩⟩
  | @setPolicy actor subject service' allowed version hver =>
    by_cases hsame : (principal, service) = (subject, service')
    · cases hsame
      refine ⟨_, lookup_insert _, .inr ?_⟩
      rw [h] at hver
      exact Nat.lt_succ_of_le hver.le
    · refine ⟨rule, (lookup_insert_ne hsame).trans h, .inl ⟨rfl, ?_⟩⟩
      rintro ⟨heq, -⟩
      exact hsame heq.symm
  | _ => exact ⟨rule, h, .inl ⟨rfl, id⟩⟩

/-- A ticket that is outstanding after a call was so before and was not used up, or the call has
just issued it. -/
theorem ticket_step (operation : Operation) {ticket : TicketId} {decision : Decision}
    (h : (s.step operation).2.tickets.lookup ticket = some decision) :
    (s.tickets.lookup ticket = some decision ∧ ¬ s.Consumes ticket operation) ∨
    ∃ caller, operation = .issue caller decision.service decision.rights ∧
      (s.step operation).1 = .ok (.ticket ticket) ∧
      s.decide? caller decision.service decision.rights = .ok decision := by
  have hdoes := s.does_step operation
  generalize (s.step operation).1 = answer at hdoes ⊢
  generalize (s.step operation).2 = s' at hdoes h
  cases hdoes with
  | other hlim hsvcs hpols htics hnext hsvc hrule htic =>
    exact .inl ⟨htics ▸ h, htic ticket⟩
  | publish | unpublish | setPolicy => exact .inl ⟨h, id⟩
  | @issue caller service requested decision' hdcs =>
    rcases lookup_insert_cases h with ⟨rfl, rfl⟩ | ⟨-, h⟩
    · obtain ⟨-, -, _, _, _, -, rfl⟩ := decide?_ok.mp hdcs
      exact .inr ⟨caller, rfl, rfl, hdcs⟩
    · exact .inl ⟨h, id⟩
  | redeem | cancel =>
    obtain ⟨hne, h⟩ := lookup_erase_some h
    exact .inl ⟨h, fun hcons => hne hcons.1.symm⟩
  | authorizeNow =>
    obtain ⟨hne, h⟩ := lookup_erase_some h
    rcases lookup_insert_cases h with ⟨rfl, -⟩ | ⟨-, h⟩
    · exact absurd rfl hne
    · exact .inl ⟨h, id⟩

theorem run_take_succ {operations : List Operation} {count : ℕ}
    (h : operations[count]? = some operation) :
    s.run (operations.take (count + 1)) = ((s.run (operations.take count)).step operation).2 := by
  rw [take_add_one, h]
  simp [run]

section History

variable (s : PolicyStore) (operations : List Operation)

/-- The call at the index returned the ticket, for this decision. -/
structure IssuedAt (index : ℕ) (ticket : TicketId) (issuer : DomainIdentity) (decision : Decision) :
    Prop where
  call : operations[index]? = some (.issue issuer decision.service decision.rights)
  answer : ((s.run (operations.take index)).step (.issue issuer decision.service decision.rights)).1 =
    .ok (.ticket ticket)
  decided : (s.run (operations.take index)).decide? issuer decision.service decision.rights =
    .ok decision

/-- None of the calls strictly between the two indices has this property. -/
def NoneBetween (index count : ℕ) (P : PolicyStore → Operation → Prop) : Prop :=
  ∀ between operation, index < between → between < count → operations[between]? = some operation →
    ¬ P (s.run (operations.take between)) operation

/-- What is known, before the call at `count`, of a ticket that was issued at `index`. -/
structure Outstanding (index count : ℕ) (ticket : TicketId) (decision : Decision) : Prop where
  unused : s.NoneBetween operations index count fun s => s.Consumes ticket
  service : ∃ binding, (s.run (operations.take count)).services.lookup decision.service = some binding ∧
    decision.serviceGeneration ≤ binding.generation ∧
    (binding.generation = decision.serviceGeneration → binding.active = true →
      s.NoneBetween operations index count fun s => s.ChangesService decision.service)
  rule : ∃ rule,
    (s.run (operations.take count)).policies.lookup (decision.principal, decision.service) = some rule ∧
    decision.policyVersion ≤ rule.version ∧
    (rule.version = decision.policyVersion →
      s.NoneBetween operations index count fun s => s.ChangesRule decision.principal decision.service)

end History

variable {operations : List Operation} {index count : ℕ} {ticket : TicketId} {decision : Decision}
  {P : PolicyStore → Operation → Prop}

theorem NoneBetween.next
    (h : s.NoneBetween operations index count P) (hop : operations[count]? = some operation)
    (hlast : ¬ P (s.run (operations.take count)) operation) :
    s.NoneBetween operations index (count + 1) P := by
  intro between other hidx hcnt hoth
  rcases Nat.lt_or_eq_of_le (Nat.lt_succ_iff.mp hcnt) with hlt | rfl
  · exact h between other hidx hlt hoth
  · cases hop.symm.trans hoth
    exact hlast

theorem NoneBetween.none : s.NoneBetween operations index (index + 1) P := by
  intro between other hidx hcnt
  omega

theorem Outstanding.next (h : s.Outstanding operations index count ticket decision)
    (hop : operations[count]? = some operation)
    (hunused : ¬ (s.run (operations.take count)).Consumes ticket operation) :
    s.Outstanding operations index (count + 1) ticket decision := by
  refine ⟨h.unused.next hop hunused, ?_, ?_⟩
  · obtain ⟨binding, hlk, hle, hcur⟩ := h.service
    obtain ⟨binding', hlk', hle', hch⟩ := service_step operation hlk
    rw [run_take_succ hop]
    refine ⟨binding', hlk', hle.trans hle', fun hgen hact => ?_⟩
    rcases hch with ⟨rfl, hkept⟩ | hinac
    · exact (hcur hgen hact).next hop hkept
    · have hsame : binding'.generation = binding.generation := le_antisymm (hgen ▸ hle) hle'
      exact absurd hact (by rw [hinac hsame]; exact Bool.false_ne_true)
  · obtain ⟨_, hlk, hle, hcur⟩ := h.rule
    obtain ⟨rule', hlk', hch⟩ := rule_step operation hlk
    rw [run_take_succ hop]
    rcases hch with ⟨rfl, hkept⟩ | hgn
    · exact ⟨rule', hlk', hle, fun hver => (hcur hver).next hop hkept⟩
    · refine ⟨rule', hlk', hle.trans hgn.le, fun hver => ?_⟩
      omega

theorem Outstanding.issued {issuer : DomainIdentity}
    (h : s.IssuedAt operations index ticket issuer decision) :
    s.Outstanding operations index (index + 1) ticket decision := by
  obtain ⟨-, -, principal, binding, rule, haut, hdcs⟩ := decide?_ok.mp h.decided
  have hgen : decision.serviceGeneration = binding.generation :=
    congrArg Decision.serviceGeneration hdcs
  have hver : decision.policyVersion = rule.version := congrArg Decision.policyVersion hdcs
  have hprin : decision.principal = principal := congrArg Decision.principal hdcs
  obtain ⟨binding', hbd', hle, -⟩ := service_step
    (.issue issuer decision.service decision.rights) haut.published
  obtain ⟨rule', hrule', hch⟩ := rule_step (.issue issuer decision.service decision.rights)
    haut.ruled
  refine ⟨.none, ⟨binding', ?_, hgen ▸ hle, fun _ _ => .none⟩, rule', ?_, ?_, fun _ => .none⟩
  · rw [run_take_succ h.call]
    exact hbd'
  · rw [run_take_succ h.call, hprin]
    exact hrule'
  · rw [hver]
    rcases hch with ⟨rfl, -⟩ | hgn
    · exact le_rfl
    · exact hgn.le

variable (h : s.Initial)
include h

theorem numbered_initial : s.Numbered ∧ s.tickets = ∅ := by
  have hemp : ∀ limits, (empty limits).Numbered ∧ (empty limits).tickets = ∅ := fun limits =>
    ⟨⟨nofun, nofun⟩, rfl⟩
  rcases h with rfl | ⟨limits, hlim⟩
  · exact hemp _
  · unfold withLimits at hlim
    split at hlim
    · cases hlim
      exact hemp limits
    · cases hlim

theorem numbered_run (operations : List Operation) (count : ℕ) :
    (s.run (operations.take count)).Numbered :=
  foldl_take_invariant (numbered_initial h).1 (fun _ operation _ hs => (numbered_step hs operation).1)
    count

/-- Every ticket in the store was issued by an earlier call and is outstanding since. -/
theorem outstanding_run (hcnt : count ≤ operations.length)
    (htic : (s.run (operations.take count)).tickets.lookup ticket = some decision) :
    ∃ index issuer, index < count ∧ s.IssuedAt operations index ticket issuer decision ∧
      s.Outstanding operations index count ticket decision := by
  induction count with
  | zero =>
    change s.tickets.lookup ticket = some decision at htic
    rw [(numbered_initial h).2] at htic
    cases htic
  | succ count ih =>
    have hop : operations[count]? = some operations[count] := getElem?_eq_getElem hcnt
    rw [run_take_succ hop] at htic
    rcases ticket_step _ htic with ⟨hbef, hunused⟩ | ⟨issuer, hissue, hans, hdeci⟩
    · obtain ⟨index, issuer, hlt, hiss, houts⟩ := ih (Nat.le_of_succ_le hcnt) hbef
      exact ⟨index, issuer, Nat.lt_succ_of_lt hlt, hiss, houts.next hop hunused⟩
    · have hiss : s.IssuedAt operations count ticket issuer decision :=
        ⟨hissue ▸ hop, hissue ▸ hans, hdeci⟩
      exact ⟨count, issuer, Nat.lt_succ_self _, hiss, .issued hiss⟩

theorem nextTicket_mono (hle : index ≤ count) (hcnt : count ≤ operations.length) :
    (s.run (operations.take index)).nextTicket ≤ (s.run (operations.take count)).nextTicket := by
  induction count, hle using Nat.le_induction with
  | base => exact le_rfl
  | succ count hle ih =>
    have hop : operations[count]? = some operations[count] := getElem?_eq_getElem hcnt
    rw [run_take_succ hop]
    exact (ih (Nat.le_of_succ_le hcnt)).trans
      (numbered_step (numbered_run h operations count) operations[count]).2.1

theorem issued_once {earlier later : Operation}
    (hearl : operations[index]? = some earlier) (hlat : operations[count]? = some later)
    (hfst : ((s.run (operations.take index)).step earlier).1 = .ok (.ticket ticket))
    (hsec : ((s.run (operations.take count)).step later).1 = .ok (.ticket ticket)) :
    ¬ index < count := by
  intro hlt
  have hlen := (List.getElem?_eq_some_iff.mp hlat).1
  obtain ⟨heq, hgn⟩ := (numbered_step (numbered_run h operations index) earlier).2.2 ticket hfst
  obtain ⟨heq', -⟩ := (numbered_step (numbered_run h operations count) later).2.2 ticket hsec
  rw [← run_take_succ hearl] at hgn
  have hmono := nextTicket_mono h hlt hlen.le
  have hself : ticket < ticket := heq.trans_lt (hgn.trans_le (hmono.trans_eq heq'.symm))
  exact lt_irrefl _ hself

omit h

/-- Before its issue a ticket cannot be used up. -/
theorem not_consumes_of_nextTicket_le (hs : s.Numbered) (hle : s.nextTicket ≤ ticket)
    (operation : Operation) : ¬ s.Consumes ticket operation := by
  have hmiss : s.tickets.lookup ticket = none := by
    cases hlk : s.tickets.lookup ticket with
    | none => rfl
    | some decision => exact absurd (hs.below ticket decision hlk) (not_lt.mpr hle)
  cases operation with
  | redeem =>
    rintro ⟨rfl, hfnd⟩
    exact hfnd (by rw [redeemTicket, hmiss])
  | cancel =>
    rintro ⟨rfl, _, hres⟩
    obtain ⟨_, -, hres⟩ := okOr_bind_ok.mp hres
    obtain ⟨_, hlk, -⟩ := okOr_bind_ok.mp hres
    cases hmiss.symm.trans hlk
  | _ => exact id

/-- What a redemption tells of the calls before it. -/
structure Redeemed (s : PolicyStore) (operations : List Operation) (count : ℕ)
    (caller : DomainIdentity) (ticket : TicketId) (grant : AuthorizedGrant) (index : ℕ)
    (issuer : DomainIdentity) (service : Bytes) : Prop where
  earlier : index < count
  call : operations[index]? = some (.issue issuer service grant.rights)
  answer : ((s.run (operations.take index)).step (.issue issuer service grant.rights)).1 =
    .ok (.ticket ticket)
  /-- No other call has returned the ticket. -/
  once : ∀ other operation, operations[other]? = some operation →
    ((s.run (operations.take other)).step operation).1 = .ok (.ticket ticket) → other = index
  bound : (s.run (operations.take index)).principalFor issuer = some grant.principal
  /-- The ticket was neither redeemed nor cancelled. -/
  unused : ∀ other operation, other < count → operations[other]? = some operation →
    ¬ (s.run (operations.take other)).Consumes ticket operation
  serviceKept : s.NoneBetween operations index count fun s => s.ChangesService service
  ruleKept : s.NoneBetween operations index count fun s => s.ChangesRule grant.principal service
  nonempty : grant.rights.isEmpty = false
  authority : ∃ binding rule,
    (s.run (operations.take count)).Authority caller service grant.rights grant.principal binding rule ∧
      grant.serviceGeneration = binding.generation ∧ grant.policyVersion = rule.version

theorem redeemed_of_grant (h : s.Initial)
    (hcall : operations[count]? = some (.redeem caller ticket))
    (hgrt : ((s.run (operations.take count)).redeemTicket caller ticket).1 = .ok grant) :
    ∃ index issuer service, s.Redeemed operations count caller ticket grant index issuer service := by
  have hlen := (List.getElem?_eq_some_iff.mp hcall).1
  unfold redeemTicket at hgrt
  split at hgrt
  · cases hgrt
  rename_i decision hlk
  obtain ⟨binding, rule, haut, hgen, hver, rfl⟩ := revalidate_ok.mp hgrt
  obtain ⟨index, issuer, hlt, hiss, hunused, ⟨_, hbd', -, hsvc⟩, _, hrule', -,
    hrule⟩ := outstanding_run h hlen.le hlk
  cases haut.published.symm.trans hbd'
  cases haut.ruled.symm.trans hrule'
  obtain ⟨hnone, -, principal, _, _, hissuer, hdcs⟩ := decide?_ok.mp hiss.decided
  have hprin : decision.principal = principal := congrArg Decision.principal hdcs
  refine ⟨index, issuer, decision.service, ?_⟩
  refine ⟨hlt, hiss.call, hiss.answer, ?_, ?_, ?_, hsvc hgen haut.active,
    hrule hver, hnone, binding, rule, ?_, rfl, rfl⟩
  · intro other operation hop hans
    apply le_antisymm
    · exact not_lt.mp (issued_once h hiss.call hop hiss.answer hans)
    · exact not_lt.mp (issued_once h hop hiss.call hans hiss.answer)
  · exact hprin ▸ hissuer.bound
  · intro other operation hoth hop
    by_cases hle : other ≤ index
    · -- Up to the issue the number of the ticket has not been given out.
      have hidx := (List.getElem?_eq_some_iff.mp hiss.call).1
      have hnumber := ((numbered_step (numbered_run h operations index) _).2.2 ticket hiss.answer).1
      have hmono := nextTicket_mono h hle hidx.le
      exact not_consumes_of_nextTicket_le (numbered_run h operations other) (hnumber ▸ hmono) operation
    · exact hunused other operation (Nat.lt_of_not_le hle) hoth hop
  · exact ⟨haut.bound, haut.published, haut.active, haut.ruled, haut.allowed, haut.ceiling⟩

/-- In every sequence of calls a redeemed ticket conveys the authority it was issued for, which
nothing has touched since; and what is asked at once is granted exactly when the caller has the
authority and there is room for a ticket. -/
theorem tickets_convey_current_authority (h : s.Initial) (operations : List Operation) :
    (∀ count caller ticket grant, operations[count]? = some (.redeem caller ticket) →
      ((s.run (operations.take count)).redeemTicket caller ticket).1 = .ok grant →
      ∃ index issuer service, s.Redeemed operations count caller ticket grant index issuer service) ∧
    ∀ count caller service requested,
      (∃ grant, ((s.run (operations.take count)).authorizeNow caller service requested).1 = .ok grant) ↔
        requested.isEmpty = false ∧
        (∃ principal binding rule, (s.run (operations.take count)).Authority caller service requested
          principal binding rule) ∧ (s.run (operations.take count)).tickets.keys.length <
          (s.run (operations.take count)).limits.tickets ∧
        (s.run (operations.take count)).nextTicket + 1 < 2 ^ 64 := by
  refine ⟨fun count caller ticket grant hcall hgrt => redeemed_of_grant h hcall hgrt,
    fun count caller service requested => ?_⟩
  rw [authorizeNow_ok]
  constructor
  · rintro ⟨hemp, -, haut, hcap, hids⟩
    exact ⟨hemp, haut, hcap, hids⟩
  · rintro ⟨hemp, ⟨principal, binding, rule, haut⟩, hcap, hids⟩
    have hnamed := (numbered_run h operations count).named service binding haut.published
    exact ⟨hemp, hnamed, ⟨principal, binding, rule, haut⟩, hcap, hids⟩

/-- A client, its rule and a service: the ticket it gets is redeemed. -/
theorem tickets_convey_current_authority_client : ∃ operations count caller ticket grant,
      operations[count]? = some (.redeem caller ticket) ∧
      ((new.run (operations.take count)).redeemTicket caller ticket).1 = .ok grant ∧
      ∃ index issuer service,
        new.Redeemed operations count caller ticket grant index issuer service := by
  let manager : DomainIdentity := ⟨1, 1, by decide, by decide⟩
  let client : DomainIdentity := ⟨2, 1, by decide, by decide⟩
  let subject : PrincipalId := ⟨7, by decide⟩
  let operations : List Operation := [.provision manager ⟨1, by decide⟩ ⟨3⟩,
    .provision client subject .none, .publish manager [1] .call, .setPolicy manager subject [1] .call 0,
    .issue client [1] .call, .redeem client 1]
  have hgrt : ((new.run (operations.take 5)).redeemTicket client 1).1 =
      .ok ⟨subject, 1, 1, .call⟩ := by decide
  exact ⟨operations, 5, client, 1, _, rfl, hgrt,
    (tickets_convey_current_authority (.inl rfl) operations).1 5 client 1 _ rfl hgrt⟩

end PolicyStore

end Charlotte.Authorization
