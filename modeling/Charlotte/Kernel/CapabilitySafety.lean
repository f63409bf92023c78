import Charlotte.Kernel.CapabilitySystem

/-!
# Safety of capability namespaces

No capability value is given out twice, none comes back once it was revoked, and none appears in a
namespace that has gone.
-/

namespace Charlotte.Kernel

open Lib List Option Function CapabilityTables

namespace CapabilitySystem

variable (s : CapabilitySystem)

/-! ### The invariant -/

/-- A capability that was given out or has lived is not given out again, nor does a revoked one
come back: `new` happened after `old`. -/
def Follows (new old : Event) : Prop :=
  match new, old with
  | .given account cap, .given account' cap' => (account, cap) ≠ (account', cap')
  | .live account cap, .revoked account' cap' => (account, cap) ≠ (account', cap')
  | _, _ => True

/-- What lives after a retirement has lived before it. -/
def LivedBefore (log : List Event) : Prop :=
  ∀ later earlier account cap, log = later ++ .retired account :: earlier →
    .live account cap ∈ later → .live account cap ∈ earlier

/-- What holds of the namespace that has the account, if it still exists. -/
def OnAccount (t : CapabilityTables) (account : ℕ)
    (P : AddressSpaceId → AddressSpaceCapabilities → Prop) : Prop :=
  account < t.nextAccount ∧
    ∀ owner table, t.namespaces owner = some table → table.account = account → P owner table

structure Sound (s : CapabilitySystem) : Prop where
  numbered : ∀ owner table, s.tables.namespaces owner = some table →
    table.account < s.tables.nextAccount
  single : ∀ owner owner' table table', s.tables.namespaces owner = some table →
    s.tables.namespaces owner' = some table' → table.account = table'.account → owner = owner'
  serial : ∀ owner table cap entry, s.tables.namespaces owner = some table →
    table.objects cap = some entry → cap < table.nextSerial
  reserved : ∀ token ∈ s.reservations, OnAccount s.tables token.account fun owner table =>
    owner = token.owner ∧ token.cap < table.nextSerial
  reservedOnce : (s.reservations.map fun token => (token.account, token.cap)).Nodup
  escrowed : ∀ token ∈ s.escrows, OnAccount s.tables token.account fun owner table =>
    owner = token.owner ∧ token.cap < table.nextSerial ∧
      ∀ entry, table.objects token.cap = some entry → entry.state = .escrow
  escrowedOnce : (s.escrows.map fun token => (token.account, token.cap)).Nodup
  given : ∀ account cap, .given account cap ∈ s.log → OnAccount s.tables account fun _ table =>
    cap < table.nextSerial
  revoked : ∀ account cap, .revoked account cap ∈ s.log → OnAccount s.tables account fun _ table =>
    cap < table.nextSerial ∧ table.objects cap = none
  retired : ∀ account, .retired account ∈ s.log → OnAccount s.tables account fun _ table =>
    table.accepting = false
  lived : ∀ owner table cap entry, s.tables.namespaces owner = some table →
    table.objects cap = some entry → entry.state ≠ .staged → .live table.account cap ∈ s.log
  follows : s.log.Pairwise Follows
  livedBefore : LivedBefore s.log

/-! ### Changes of one namespace -/

section Tables

variable {t : CapabilityTables} {owner : AddressSpaceId} {table table' : AddressSpaceCapabilities}
  {account : ℕ} {P : AddressSpaceId → AddressSpaceCapabilities → Prop}

theorem setNamespace_cases {changed : Option AddressSpaceCapabilities} {other : AddressSpaceId}
    (h : (t.setNamespace owner changed).namespaces other = some table) :
    (other = owner ∧ changed = some table) ∨ (other ≠ owner ∧ t.namespaces other = some table) :=
  update_eq_some h

theorem OnAccount.rewrite (h : OnAccount t account P) (htab : t.namespaces owner = some table)
    (hacc : table'.account = table.account)
    (hP : table.account = account → P owner table → P owner table') :
    OnAccount (t.setNamespace owner (some table')) account P := by
  refine ⟨h.1, fun other table'' hns hsame => ?_⟩
  rcases setNamespace_cases hns with ⟨rfl, ⟨⟩⟩ | ⟨-, hold⟩
  · have hold : table.account = account := hacc.symm.trans hsame
    exact hP hold (h.2 other table htab hold)
  · exact h.2 other table'' hold hsame

theorem OnAccount.remove (h : OnAccount t account P) :
    OnAccount (t.setNamespace owner none) account P := by
  refine ⟨h.1, fun other table'' hns => ?_⟩
  rcases setNamespace_cases hns with ⟨-, heq⟩ | ⟨-, hold⟩
  · cases heq
  · exact h.2 other table'' hold

theorem OnAccount.attach (h : OnAccount t account P) (identity : Option AddressSpaceHandle) :
    OnAccount (t.attach owner identity) account P := by
  refine ⟨Nat.lt_succ_of_lt h.1, fun other table'' hns hsame => ?_⟩
  rcases setNamespace_cases hns with ⟨-, ⟨⟩⟩ | ⟨-, hold⟩
  · exact absurd hsame h.1.ne'
  · exact h.2 other table'' hold hsame

end Tables

variable {s} {owner : AddressSpaceId} {table table' : AddressSpaceCapabilities}
  {account cap : ℕ} (hs : s.Sound) {event : Event}
include hs

/-- The account of a namespace that is changed or removed belongs to no other. -/
theorem Sound.onAccount {P : AddressSpaceId → AddressSpaceCapabilities → Prop}
    (htab : s.tables.namespaces owner = some table) {changed : Option AddressSpaceCapabilities}
    (hP : ∀ table', changed = some table' → P owner table') :
    OnAccount (s.tables.setNamespace owner changed) table.account P := by
  refine ⟨hs.numbered owner table htab, fun other table' hns hsame => ?_⟩
  rcases setNamespace_cases hns with ⟨rfl, heq⟩ | ⟨hne, hold⟩
  · exact hP table' heq
  · exact absurd (hs.single _ _ _ _ hold htab hsame) hne

/-- A namespace changes; what is asked of its new records does not depend on the others. -/
theorem Sound.rewrite (htab : s.tables.namespaces owner = some table)
    (hacc : table'.account = table.account) (hgn : table.nextSerial ≤ table'.nextSerial)
    (hacce : table'.accepting = true → table.accepting = true)
    (hser : ∀ cap entry, table'.objects cap = some entry → cap < table'.nextSerial)
    (hescr : ∀ token ∈ s.escrows, token.account = table.account → ∀ entry,
      table'.objects token.cap = some entry → entry.state = .escrow)
    (hrevo : ∀ cap, .revoked table.account cap ∈ s.log → table'.objects cap = none)
    (hlived : ∀ cap entry, table'.objects cap = some entry → entry.state ≠ .staged →
      .live table.account cap ∈ s.log) :
    Sound { s with tables := s.tables.setNamespace owner (some table') } where
  numbered other table'' hns := by
    rcases setNamespace_cases hns with ⟨-, ⟨⟩⟩ | ⟨-, hold⟩
    · exact hacc ▸ hs.numbered owner table htab
    · exact hs.numbered other table'' hold
  single first second _ _ hfst hsec hsame := by
    rcases setNamespace_cases hfst with ⟨rfl, ⟨⟩⟩ | ⟨-, hold⟩ <;>
      rcases setNamespace_cases hsec with ⟨rfl, ⟨⟩⟩ | ⟨-, hold'⟩
    · rfl
    · exact hs.single _ _ _ _ htab hold' (hacc.symm.trans hsame)
    · exact hs.single _ _ _ _ hold htab (hsame.trans hacc)
    · exact hs.single _ _ _ _ hold hold' hsame
  serial other table'' cap entry hns hent := by
    rcases setNamespace_cases hns with ⟨-, ⟨⟩⟩ | ⟨-, hold⟩
    · exact hser cap entry hent
    · exact hs.serial other table'' cap entry hold hent
  reserved token htok := (hs.reserved token htok).rewrite htab hacc
    fun _ h => ⟨h.1, h.2.trans_le hgn⟩
  reservedOnce := hs.reservedOnce
  escrowed token htok := (hs.escrowed token htok).rewrite htab hacc
    fun hsame h => ⟨h.1, h.2.1.trans_le hgn, hescr token htok hsame.symm⟩
  escrowedOnce := hs.escrowedOnce
  given account cap hgiven := (hs.given account cap hgiven).rewrite htab hacc
    fun _ h => h.trans_le hgn
  revoked account cap hev := (hs.revoked account cap hev).rewrite htab hacc
    fun hsame h => ⟨h.1.trans_le hgn, hrevo cap (hsame ▸ hev)⟩
  retired account hev := (hs.retired account hev).rewrite htab hacc fun _ h =>
    Bool.eq_false_iff.mpr fun htrue => Bool.eq_false_iff.mp h (hacce htrue)
  lived other table'' cap entry hns hent hst := by
    rcases setNamespace_cases hns with ⟨-, ⟨⟩⟩ | ⟨-, hold⟩
    · rw [hacc]
      exact hlived cap entry hent hst
    · exact hs.lived other table'' cap entry hold hent hst
  follows := hs.follows
  livedBefore := hs.livedBefore

theorem Sound.remove (owner : AddressSpaceId) :
    Sound { s with tables := s.tables.setNamespace owner none } := by
  have hold : ∀ other table, (s.tables.setNamespace owner none).namespaces other = some table →
      s.tables.namespaces other = some table := by
    intro other table h
    rcases setNamespace_cases h with ⟨-, heq⟩ | ⟨-, hold⟩
    · cases heq
    · exact hold
  exact { hs with
    numbered := fun other table h => hs.numbered other table (hold other table h)
    single := fun _ _ _ _ h h' => hs.single _ _ _ _ (hold _ _ h) (hold _ _ h')
    serial := fun other table cap entry h => hs.serial other table cap entry (hold other table h)
    reserved := fun token htok => (hs.reserved token htok).remove
    escrowed := fun token htok => (hs.escrowed token htok).remove
    given := fun account cap h => (hs.given account cap h).remove
    revoked := fun account cap h => (hs.revoked account cap h).remove
    retired := fun account h => (hs.retired account h).remove
    lived := fun other table cap entry h => hs.lived other table cap entry (hold other table h) }

theorem Sound.attach (owner : AddressSpaceId) (identity : Option AddressSpaceHandle) :
    Sound { s with tables := s.tables.attach owner identity } where
  numbered other table h := by
    rcases setNamespace_cases h with ⟨-, ⟨⟩⟩ | ⟨-, hold⟩
    · exact Nat.lt_succ_self _
    · exact Nat.lt_succ_of_lt (hs.numbered other table hold)
  single first second _ _ hfst hsec hsame := by
    rcases setNamespace_cases hfst with ⟨rfl, ⟨⟩⟩ | ⟨-, hold⟩ <;>
      rcases setNamespace_cases hsec with ⟨rfl, ⟨⟩⟩ | ⟨-, hold'⟩
    · rfl
    · exact absurd hsame.symm (hs.numbered _ _ hold').ne
    · exact absurd hsame (hs.numbered _ _ hold).ne
    · exact hs.single _ _ _ _ hold hold' hsame
  serial other table cap entry h hent := by
    rcases setNamespace_cases h with ⟨-, ⟨⟩⟩ | ⟨-, hold⟩
    · cases hent
    · exact hs.serial other table cap entry hold hent
  reserved token htok := (hs.reserved token htok).attach identity
  reservedOnce := hs.reservedOnce
  escrowed token htok := (hs.escrowed token htok).attach identity
  escrowedOnce := hs.escrowedOnce
  given account cap h := (hs.given account cap h).attach identity
  revoked account cap h := (hs.revoked account cap h).attach identity
  retired account h := (hs.retired account h).attach identity
  lived other table cap entry h hent hst := by
    rcases setNamespace_cases h with ⟨-, ⟨⟩⟩ | ⟨-, hold⟩
    · cases hent
    · exact hs.lived other table cap entry hold hent hst
  follows := hs.follows
  livedBefore := hs.livedBefore

/-! ### Tokens and events -/

theorem Sound.release {reservations : List Reservation} {escrows : List SourceEscrow}
    (hrsvs : reservations.Sublist s.reservations) (hesc : escrows.Sublist s.escrows) :
    Sound { s with reservations, escrows } :=
  { hs with
    reserved := fun token htok => hs.reserved token (hrsvs.subset htok)
    reservedOnce := (hrsvs.map _).nodup hs.reservedOnce
    escrowed := fun token htok => hs.escrowed token (hesc.subset htok)
    escrowedOnce := (hesc.map _).nodup hs.escrowedOnce }

omit hs in
theorem LivedBefore.other {log : List Event} (h : LivedBefore log)
    (hlive : ∀ account cap, event ≠ .live account cap) : LivedBefore (event :: log) := by
  intro later earlier account cap hlog hmem
  cases later with
  | nil => cases hmem
  | cons head later =>
    obtain ⟨rfl, rfl⟩ := hlog
    rcases mem_cons.mp hmem with heq | hmem
    · exact absurd heq.symm (hlive account cap)
    · exact h later earlier account cap rfl hmem

theorem Sound.logEvent (hgiven : ∀ account cap, event ≠ .given account cap)
    (hrevo : ∀ account cap, event = .revoked account cap → OnAccount s.tables account fun _ table =>
      cap < table.nextSerial ∧ table.objects cap = none)
    (hret : ∀ account, event = .retired account → OnAccount s.tables account fun _ table =>
      table.accepting = false) (hfol : ∀ old ∈ s.log, Follows event old)
    (hlived : LivedBefore (event :: s.log)) : Sound { s with log := event :: s.log } :=
  { hs with
    given := fun account cap h =>
      hs.given account cap ((mem_cons.mp h).resolve_left (hgiven account cap).symm)
    revoked := fun account cap h =>
      (mem_cons.mp h).elim (fun heq => hrevo account cap heq.symm) (hs.revoked account cap)
    retired := fun account h =>
      (mem_cons.mp h).elim (fun heq => hret account heq.symm) (hs.retired account)
    lived := fun other table cap entry h hent hst =>
      mem_cons_of_mem _ (hs.lived other table cap entry h hent hst)
    follows := pairwise_cons.mpr ⟨hfol, hs.follows⟩
    livedBefore := hlived }

theorem Sound.logLive (hrevo : .revoked account cap ∉ s.log)
    (hret : .retired account ∈ s.log → .live account cap ∈ s.log) :
    Sound { s with log := .live account cap :: s.log } := by
  refine hs.logEvent nofun nofun nofun ?_ ?_
  · rintro old hold
    cases old with
    | revoked =>
      intro heq
      cases heq
      exact hrevo hold
    | _ => exact trivial
  · intro later earlier account' cap' hlog hmem
    cases later with
    | nil => cases hmem
    | cons head later =>
      simp only [cons_append, cons.injEq] at hlog
      obtain ⟨rfl, hlog⟩ := hlog
      rcases mem_cons.mp hmem with heq | hmem
      · cases heq
        have hretiredMem : .retired account ∈ s.log := by simp [hlog]
        have hlivedMem := hret hretiredMem
        rw [hlog] at hlivedMem
        rcases mem_append.mp hlivedMem with hlat | hearl
        · exact hs.livedBefore later earlier account cap hlog hlat
        · simpa using hearl
      · exact hs.livedBefore later earlier account' cap' hlog hmem

theorem Sound.logRevoked
    (hgone : OnAccount s.tables account fun _ table => cap < table.nextSerial ∧ table.objects cap = none) :
    Sound { s with log := .revoked account cap :: s.log } := by
  refine hs.logEvent nofun ?_ nofun (fun old _ => ?_) (hs.livedBefore.other nofun)
  · rintro _ _ ⟨⟩
    exact hgone
  · cases old <;> exact trivial

theorem Sound.logRetired (hret : OnAccount s.tables account fun _ table => table.accepting = false) :
    Sound { s with log := .retired account :: s.log } := by
  refine hs.logEvent nofun nofun ?_ (fun old _ => ?_) (hs.livedBefore.other nofun)
  · rintro _ ⟨⟩
    exact hret
  · cases old <;> exact trivial

/-! ### Operations -/

variable {t : CapabilityTables} {kind : ObjectKind} {state : EntryState} {allowRetired : Bool}

omit hs in
theorem admissible_ok : t.admissible owner cap kind account state allowRetired = .ok table ↔
      t.namespaces owner = some table ∧ table.account = account ∧
        (allowRetired = true ∨ table.accepting = true) ∧ table.objects cap = some ⟨kind, state⟩ := by
  unfold admissible captured
  rw [okOr_bind_ok]
  constructor
  · rintro ⟨_, hfnd, h⟩
    obtain ⟨hns, hacco⟩ := filter_eq_some_iff.mp hfnd
    obtain ⟨hacc, h⟩ := ensure_bind_ok.mp h
    obtain ⟨hent, h⟩ := ensure_bind_ok.mp h
    cases h
    exact ⟨hns, beq_iff_eq.mp hacco, hacc, hent⟩
  · rintro ⟨hns, hacco, hacc, hent⟩
    refine ⟨table, filter_eq_some_iff.mpr ⟨hns, beq_iff_eq.mpr hacco⟩, ?_⟩
    exact ensure_bind_ok.mpr ⟨hacc, ensure_bind_ok.mpr ⟨hent, rfl⟩⟩

variable {entry : Entry} (htab : s.tables.namespaces owner = some table)
include htab

theorem Sound.setEntry (hent : table.objects cap = some entry) (changed : Option Entry)
    (hescr : ∀ token ∈ s.escrows, token.account = table.account → token.cap = cap →
      ∀ entry', changed = some entry' → entry'.state = .escrow)
    (hlived : ∀ entry', changed = some entry' → entry'.state ≠ .staged →
      .live table.account cap ∈ s.log) :
    Sound { s with tables := s.tables.setEntry owner table cap changed } := by
  have hobjs : ∀ other entry', update table.objects cap changed other = some entry' →
      (other = cap ∧ changed = some entry') ∨ table.objects other = some entry' :=
    fun _ _ h => (update_eq_some h).imp_right And.right
  apply hs.rewrite htab
  · rfl
  · exact le_rfl
  · exact id
  · intro other entry' h
    rcases hobjs other entry' h with ⟨rfl, -⟩ | h
    · exact hs.serial owner table _ entry htab hent
    · exact hs.serial owner table other entry' htab h
  · intro token htok hacc entry' h
    rcases hobjs token.cap entry' h with ⟨hcap, h⟩ | h
    · exact hescr token htok hacc hcap entry' h
    · exact ((hs.escrowed token htok).2 owner table htab hacc.symm).2.2 entry' h
  · intro other hev
    have hnone := ((hs.revoked table.account other hev).2 owner table htab rfl).2
    have hoth : other ≠ cap := by
      rintro rfl
      cases hnone.symm.trans hent
    exact (update_of_ne hoth _ _).trans hnone
  · intro other entry' h hst
    rcases hobjs other entry' h with ⟨rfl, hch⟩ | hold
    · exact hlived entry' hch hst
    · exact hs.lived owner table other entry' htab hold hst

theorem Sound.not_revoked
    (hent : table.objects cap = some entry) : .revoked table.account cap ∉ s.log := by
  intro hev
  cases (((hs.revoked table.account cap hev).2 owner table htab rfl).2).symm.trans hent

theorem Sound.not_retired (hacc : table.accepting = true) : .retired table.account ∉ s.log := by
  intro hev
  have hfalse := (hs.retired table.account hev).2 owner table htab rfl
  exact Bool.false_ne_true (hfalse.symm.trans hacc)

omit htab

omit hs in
/-- Two tokens that are held do not name the same record. -/
theorem ne_of_mem_erase {α : Type} [DecidableEq α] {tokens : List α} {key : α → ℕ × ℕ}
    (hnd : (tokens.map key).Nodup) {token other : α} (htok : token ∈ tokens)
    (hoth : other ∈ tokens.erase token) : key other ≠ key token := by
  intro hsame
  have hmem : other ∈ tokens := mem_of_mem_erase hoth
  have heq := inj_on_of_nodup_map hnd hmem htok hsame
  subst heq
  exact (List.Nodup.mem_erase_iff (List.Nodup.of_map _ hnd)).mp hoth |>.1 rfl

variable {token : Reservation}

theorem Sound.goLive
    (hadm : s.tables.admissible token.owner token.cap token.kind token.account .staged false =
      .ok table) : Sound { s with
      tables := s.tables.setEntry token.owner table token.cap (some ⟨token.kind, .live⟩)
      reservations := s.reservations.erase token
      log := .live token.account token.cap :: s.log } := by
  obtain ⟨htab, hacco, hacc, hent⟩ := admissible_ok.mp hadm
  have hacc : table.accepting = true := hacc.resolve_left Bool.false_ne_true
  rw [← hacco]
  have hrel := hs.release (erase_sublist (a := token) (l := s.reservations)) (.refl _)
  have hlgd := hrel.logLive (hs.not_revoked htab hent)
    (fun hret => absurd hret (hs.not_retired htab hacc))
  refine hlgd.setEntry htab hent _ (fun other hoth hsame hcap entry _ => ?_)
    (fun _ _ _ => mem_cons_self)
  have hst := ((hs.escrowed other hoth).2 token.owner table htab hsame.symm).2.2
    ⟨token.kind, .staged⟩ (hcap ▸ hent)
  cases hst

theorem Sound.restore {token : SourceEscrow} (htok : token ∈ s.escrows)
    (hadm : s.tables.admissible token.owner token.cap token.kind token.account .escrow
      allowRetired = .ok table) : Sound { s with
      tables := s.tables.setEntry token.owner table token.cap (some ⟨token.kind, .live⟩)
      escrows := s.escrows.erase token
      log := .live token.account token.cap :: s.log } := by
  obtain ⟨htab, hacc, -, hent⟩ := admissible_ok.mp hadm
  have hlived := hs.lived _ _ _ _ htab hent nofun
  have hrel := hs.release (.refl _) (erase_sublist (a := token) (l := s.escrows))
  rw [← hacc]
  have hlgd := hrel.logLive (hs.not_revoked htab hent) (fun _ => hlived)
  refine hlgd.setEntry htab hent _ (fun other hoth hsame hcap entry _ => ?_)
    (fun _ _ _ => mem_cons_self)
  refine absurd (Prod.ext ?_ hcap) (ne_of_mem_erase hs.escrowedOnce htok hoth)
  exact hsame.trans hacc

theorem Sound.revoke {token : SourceEscrow}
    (hadm : s.tables.admissible token.owner token.cap token.kind token.account .escrow
      allowRetired = .ok table) : Sound { s with
      tables := s.tables.setEntry token.owner table token.cap none
      escrows := s.escrows.erase token
      log := .revoked token.account token.cap :: s.log } := by
  obtain ⟨htab, hacc, -, hent⟩ := admissible_ok.mp hadm
  have hrel := hs.release (.refl _) (erase_sublist (a := token) (l := s.escrows))
  have hremo := hrel.setEntry htab hent none (fun _ _ _ _ _ => nofun) (fun _ => nofun)
  have hser := hs.serial _ _ _ _ htab hent
  refine hremo.logRevoked (hacc ▸ hs.onAccount htab ?_)
  rintro _ ⟨⟩
  exact ⟨hser, update_self ..⟩

theorem Sound.discard (owner : AddressSpaceId) (cap account : ℕ) (state : EntryState) :
    Sound { s with tables := s.tables.discardCaptured owner cap account state } := by
  unfold discardCaptured
  split
  · exact hs
  rename_i hcpt
  obtain ⟨htab, -⟩ := filter_eq_some_iff.mp hcpt
  split
  · exact hs
  · rename_i hent
    split
    · exact hs.setEntry htab hent none (fun _ _ _ _ _ => nofun) (fun _ => nofun)
    · exact hs

theorem Sound.retireRecord (owner : AddressSpaceId) (cap : ℕ) (kind : ObjectKind)
    (accepts : EntryState → Bool) :
    Sound { s with tables := (s.tables.retireRecord owner cap kind accepts).2 } := by
  unfold CapabilityTables.retireRecord
  split
  · exact hs
  rename_i htab
  split
  · exact hs
  · rename_i hent
    split
    · exact hs.setEntry htab hent none (fun _ _ _ _ _ => nofun) (fun _ => nofun)
    · exact hs

/-- A new reservation of a namespace, with the number that comes next. -/
theorem Sound.insertRecord (htab : s.tables.namespaces owner = some table)
    {admitted : Bool} {tables : CapabilityTables}
    (h : s.tables.insertRecord owner table kind admitted = .ok (token, tables)) : Sound { s with
      tables, reservations := token :: s.reservations, log := .given token.account token.cap :: s.log } := by
  simp only [CapabilityTables.insertRecord, bind_eq_ok, okOr_eq_ok] at h
  obtain ⟨_, -, _, -, ⟨cap, next⟩, hclaim, h⟩ := h
  cases h
  have hnext : cap = table.nextSerial ∧ next = table.nextSerial + 1 := by
    unfold claimGeneration at hclaim
    split at hclaim
    · cases hclaim
    · cases hclaim
      exact ⟨rfl, rfl⟩
  obtain ⟨rfl, rfl⟩ := hnext
  set table' : AddressSpaceCapabilities := { table with
    nextSerial := table.nextSerial + 1
    objects := update table.objects table.nextSerial (some ⟨kind, .staged⟩) } with htab'
  have hobjs : ∀ cap entry, table'.objects cap = some entry →
      (cap = table.nextSerial ∧ entry = ⟨kind, .staged⟩) ∨ table.objects cap = some entry := by
    intro cap entry hent
    simp only [htab', update_apply] at hent
    split_ifs at hent with hcap
    · exact .inl ⟨hcap, (some.inj hent).symm⟩
    · exact .inr hent
  have hrew : Sound { s with tables := s.tables.setNamespace owner (some table') } := by
    apply hs.rewrite htab
    · rfl
    · exact Nat.le_succ _
    · exact id
    · intro cap entry hent
      rcases hobjs cap entry hent with ⟨rfl, -⟩ | hold
      · exact Nat.lt_succ_self _
      · exact Nat.lt_succ_of_lt (hs.serial owner table cap entry htab hold)
    · intro token htok hacc entry hent
      obtain ⟨-, hcap, hst⟩ := (hs.escrowed token htok).2 owner table htab hacc.symm
      rcases hobjs token.cap entry hent with ⟨heq, -⟩ | hold
      · exact absurd heq hcap.ne
      · exact hst entry hold
    · intro cap hev
      obtain ⟨hcap, hnone⟩ := (hs.revoked table.account cap hev).2 owner table htab rfl
      exact (update_of_ne hcap.ne _ _).trans hnone
    · intro cap entry hent hst
      rcases hobjs cap entry hent with ⟨-, rfl⟩ | hold
      · exact absurd rfl hst
      · exact hs.lived owner table cap entry htab hold hst
  have hhere : OnAccount (s.tables.setNamespace owner (some table')) table.account
      fun other table'' => other = owner ∧ table.nextSerial < table''.nextSerial := by
    refine hs.onAccount htab ?_
    rintro _ ⟨⟩
    exact ⟨rfl, Nat.lt_succ_self _⟩
  refine { hrew with
    reserved := ?_
    reservedOnce := ?_
    given := ?_
    revoked := fun account' cap' h => hrew.revoked account' cap' (by simpa using h)
    retired := fun account' h => hrew.retired account' (by simpa using h)
    lived := fun other table cap' entry h hent hst =>
      mem_cons_of_mem _ (hrew.lived other table cap' entry h hent hst)
    follows := pairwise_cons.mpr ⟨?_, hrew.follows⟩
    livedBefore := hrew.livedBefore.other (fun _ _ => nofun) }
  · exact forall_mem_cons.mpr ⟨hhere, hrew.reserved⟩
  · refine nodup_cons.mpr ⟨fun hmem => ?_, hs.reservedOnce⟩
    obtain ⟨other, hoth, heq⟩ := mem_map.mp hmem
    obtain ⟨hsame, hcap⟩ := Prod.ext_iff.mp heq
    exact absurd hcap ((hs.reserved other hoth).2 owner table htab hsame.symm).2.ne
  · intro account' cap' hgiven
    rcases mem_cons.mp hgiven with heq | hgiven
    · cases heq
      exact ⟨hhere.1, fun other table'' hns hsame => (hhere.2 other table'' hns hsame).2⟩
    · exact hrew.given account' cap' hgiven
  · intro old hold
    cases old with
    | given =>
      intro heq
      cases heq
      exact Nat.lt_irrefl _ ((hs.given _ _ hold).2 owner table htab rfl)
    | _ => exact trivial

theorem Sound.reserveCaptured (owner : AddressSpaceId) (kind : ObjectKind)
    (identity : Option AddressSpaceHandle) (admitted : Bool) :
    (s.step (.reserve owner kind identity admitted)).Sound := by
  simp only [step, CapabilityTables.reserveCaptured]
  cases htab : s.tables.namespaces owner with
  | some table =>
    simp only
    by_cases hidn : table.addressSpace ≠ if owner = kernelAsid then none else identity
    · rw [if_pos hidn]
      exact hs
    · rw [if_neg hidn]
      cases hins : s.tables.insertRecord owner table kind admitted with
      | error => exact hs
      | ok => exact hs.insertRecord htab hins
  | none =>
    have hatta := hs.attach owner none
    generalize (if owner = kernelAsid then none else identity) = identity
    cases hidn : identity.isSome with
    | true => exact hs
    | false =>
      have hns : (s.tables.attach owner none).namespaces owner =
          some ⟨1, none, s.tables.nextAccount, true, fun _ => none⟩ := update_self ..
      simp only [Bool.false_eq_true, if_false, hns]
      cases hins : (s.tables.attach owner none).insertRecord owner
          ⟨1, none, s.tables.nextAccount, true, fun _ => none⟩ kind admitted with
      | error error => exact hatta
      | ok result => exact hatta.insertRecord hns hins

theorem Sound.escrowCaptured (owner : AddressSpaceId) (cap : ℕ) (kind : ObjectKind)
    (identity : Option AddressSpaceHandle) : (s.step (.escrow owner cap kind identity)).Sound := by
  simp only [step]
  cases h : s.tables.escrowCaptured owner cap kind identity with
  | error => exact hs
  | ok result =>
    obtain ⟨token, tables⟩ := result
    simp only [CapabilityTables.escrowCaptured, bind_eq_ok, okOr_eq_ok, ensure_eq_ok] at h
    obtain ⟨table, htab, _, -, _, hent, h⟩ := h
    cases h
    have hlived := hs.lived _ _ _ _ htab hent nofun
    have hser := hs.serial _ _ _ _ htab hent
    have hch : Sound { s with
        tables := s.tables.setEntry owner table cap (some ⟨kind, .escrow⟩) } := by
      refine hs.setEntry htab hent _ (fun _ _ _ _ entry heq => ?_) (fun _ _ _ => hlived)
      cases heq
      rfl
    refine { hch with escrowed := ?_, escrowedOnce := ?_ }
    · intro token htok
      rcases mem_cons.mp htok with rfl | htok
      · refine hs.onAccount htab ?_
        rintro _ ⟨⟩
        refine ⟨rfl, hser, fun entry hnew => ?_⟩
        simp only [update_self] at hnew
        cases hnew
        rfl
      · exact hch.escrowed token htok
    · -- A token of the same record would have it in escrow already.
      refine nodup_cons.mpr ⟨fun hmem => ?_, hs.escrowedOnce⟩
      obtain ⟨other, hoth, heq⟩ := mem_map.mp hmem
      obtain ⟨hsame, hcap⟩ := Prod.ext_iff.mp heq
      have hcap : other.cap = cap := hcap
      have hst := ((hs.escrowed other hoth).2 owner table htab hsame.symm).2.2
        ⟨kind, .live⟩ (hcap ▸ hent)
      cases hst

omit hs

/-! ### Batches -/

/-- The record of a capability. -/
def record? (t : CapabilityTables) (owner : AddressSpaceId) (cap : ℕ) : Option Entry :=
  (t.namespaces owner).bind (·.objects cap)

theorem record?_setEntry (owner : AddressSpaceId)
    (table : AddressSpaceCapabilities) (cap : ℕ) (changed : Option Entry) :
    record? (t.setEntry owner table cap changed) owner cap = changed := by
  simp [record?, setEntry, setNamespace]

variable {other owner : AddressSpaceId}

theorem namespaces_setEntry_of_ne
    (table : AddressSpaceCapabilities) (cap : ℕ) (changed : Option Entry) (hne : other ≠ owner) :
    (t.setEntry owner table cap changed).namespaces other = t.namespaces other :=
  update_of_ne hne _ _

variable {cap' : ℕ}

theorem record?_setEntry_of_ne (htab : t.namespaces owner = some table) (changed : Option Entry)
    (hne : (other, cap') ≠ (owner, cap)) :
    record? (t.setEntry owner table cap changed) other cap' = record? t other cap' := by
  by_cases hoth : other = owner
  · subst hoth
    have hcap : cap' ≠ cap := fun h => hne (by rw [h])
    simp [record?, setEntry, setNamespace, htab, update_of_ne hcap]
  · simp [record?, namespaces_setEntry_of_ne table cap changed hoth]

/-- A token stays admissible when the record of another capability changes. -/
theorem admissible_setEntry
    {table₀ : AddressSpaceCapabilities} (htab : t.namespaces owner = some table₀)
    (changed : Option Entry) (hne : (other, cap') ≠ (owner, cap))
    (h : ∃ table, t.admissible other cap' kind account state allowRetired = .ok table) :
    ∃ table, (t.setEntry owner table₀ cap changed).admissible other cap' kind account state
      allowRetired = .ok table := by
  obtain ⟨table, h⟩ := h
  obtain ⟨hns, hacco, hacc, hent⟩ := admissible_ok.mp h
  by_cases hoth : other = owner
  · subst hoth
    cases htab.symm.trans hns
    have hcap : cap' ≠ cap := fun h => hne (by rw [h])
    refine ⟨_, admissible_ok.mpr ⟨update_self .., hacco, hacc, ?_⟩⟩
    exact (update_of_ne hcap _ _).trans hent
  · refine ⟨table, admissible_ok.mpr ⟨?_, hacco, hacc, hent⟩⟩
    exact (namespaces_setEntry_of_ne _ _ _ hoth).trans hns

/-- The capabilities that a publication names. -/
def names (publication : Publication) : List (AddressSpaceId × ℕ) :=
  (publication.destination.owner, publication.destination.cap) ::
    (publication.source.elim [] fun source => [(source.1.owner, source.1.cap)])

theorem mem_names {publication : Publication} {name : AddressSpaceId × ℕ} :
    name ∈ names publication ↔ name = (publication.destination.owner, publication.destination.cap) ∨
      ∃ source disposition, publication.source = some (source, disposition) ∧
        name = (source.owner, source.cap) := by
  obtain ⟨_, _ | ⟨_, _⟩⟩ := publication <;> simp [names]

/-- What a publication has done. -/
structure Published (t : CapabilityTables) (publication : Publication) : Prop where
  destination : record? t publication.destination.owner publication.destination.cap =
    some ⟨publication.destination.kind, .live⟩
  revoked : ∀ source, publication.source = some (source, .revoke) →
    record? t source.owner source.cap = none
  restored : ∀ source, publication.source = some (source, .restore) →
    record? t source.owner source.cap = some ⟨source.kind, .live⟩

/-- Both tokens of a publication pass the checks of the first pass. -/
structure Valid (t : CapabilityTables) (publication : Publication) : Prop where
  destination : ∃ table, t.admissible publication.destination.owner publication.destination.cap
    publication.destination.kind publication.destination.account .staged false = .ok table
  source : ∀ source disposition, publication.source = some (source, disposition) →
    ∃ table, t.admissible source.owner source.cap source.kind source.account .escrow false = .ok table

variable {publication : Publication} {u : Unit}

theorem validate_ok (h : t.validate publication = .ok u) : Valid t publication := by
  obtain ⟨table, hdst, h⟩ := bind_eq_ok.mp h
  refine ⟨⟨table, hdst⟩, fun source disposition hsrc => ?_⟩
  rw [hsrc] at h
  obtain ⟨table', hadm, -⟩ := bind_eq_ok.mp h
  exact ⟨table', hadm⟩

variable {publications : List Publication}

theorem validate_batch
    (h : publications.forM t.validate = .ok u) : ∀ publication ∈ publications, Valid t publication := by
  induction publications with
  | nil => exact fun _ h => absurd h not_mem_nil
  | cons publication publications ih =>
    obtain ⟨_, hfst, hrest⟩ := bind_eq_ok.mp h
    exact forall_mem_cons.mpr ⟨validate_ok hfst, ih hrest⟩

theorem update?_of_admissible
    (h : t.admissible owner cap kind account state allowRetired = .ok table)
    (change : Entry → Option Entry) :
    t.update? owner cap change = some (t.setEntry owner table cap (change ⟨kind, state⟩)) := by
  obtain ⟨hns, -, -, hent⟩ := admissible_ok.mp h
  simp [update?, hns, hent]

/-- The accounts of the tokens of a publication. -/
def accounts (publication : Publication) : List ℕ :=
  publication.destination.account :: (publication.source.elim [] fun source => [source.1.account])

/-- Only records that the publication names have changed. -/
structure ChangedOnly (t t' : CapabilityTables) (named : List (AddressSpaceId × ℕ))
    (captured : List ℕ) : Prop where
  entries : ∀ owner cap, (owner, cap) ∉ named → record? t' owner cap = record? t owner cap
  namespaces : ∀ owner, (∀ table, t.namespaces owner = some table → table.account ∉ captured) →
    t'.namespaces owner = t.namespaces owner
  admissible : ∀ owner cap kind account state allowRetired, (owner, cap) ∉ named →
    (∃ table, t.admissible owner cap kind account state allowRetired = .ok table) →
    ∃ table, t'.admissible owner cap kind account state allowRetired = .ok table

theorem changedOnly_setEntry (h : t.admissible owner cap kind account state allowRetired = .ok table)
    (changed : Option Entry) :
    ChangedOnly t (t.setEntry owner table cap changed) [(owner, cap)] [account] := by
  obtain ⟨htab, hacc, -, -⟩ := admissible_ok.mp h
  refine ⟨fun other cap' hne => ?_, fun other hoth => ?_, fun other cap' _ _ _ _ hne => ?_⟩
  · exact record?_setEntry_of_ne htab changed (fun heq => hne (heq ▸ mem_cons_self))
  · refine namespaces_setEntry_of_ne _ _ _ ?_
    rintro rfl
    exact hoth table htab (hacc ▸ mem_cons_self)
  · exact admissible_setEntry htab changed (fun heq => hne (heq ▸ mem_cons_self))

/-- Changes of distinct records add up. The second is made in a namespace of the first tables,
so that its account is the one that was captured. -/
theorem ChangedOnly.trans {t' t'' : CapabilityTables} {named named' : List (AddressSpaceId × ℕ)}
    {captured captured' : List ℕ} (h : ChangedOnly t t' named captured)
    (h' : ChangedOnly t' t'' named' captured') :
    ChangedOnly t t'' (named ++ named') (captured ++ captured') := by
  refine ⟨fun owner cap hne => ?_, fun owner hown => ?_, fun owner cap _ _ _ _ hne hok => ?_⟩
  · simp only [mem_append, not_or] at hne
    rw [h'.entries owner cap hne.2, h.entries owner cap hne.1]
  · have hfst := h.namespaces owner fun table htab hmem =>
      hown table htab (mem_append_left _ hmem)
    rw [h'.namespaces owner ?_, hfst]
    intro table htab hmem
    rw [hfst] at htab
    exact hown table htab (mem_append_right _ hmem)
  · simp only [mem_append, not_or] at hne
    exact h'.admissible owner cap _ _ _ _ hne.2 (h.admissible owner cap _ _ _ _ hne.1 hok)

variable {owner' : AddressSpaceId} {account' : ℕ} {kind' : ObjectKind} {state' : EntryState}
  {allowRetired' : Bool}

/-- Tokens that were taken under other keys or in other states name other records. -/
theorem names_ne (h : t.admissible owner cap kind account state allowRetired = .ok table)
    (h' : t.admissible owner' cap' kind' account' state' allowRetired' = .ok table')
    (hne : (account, cap) ≠ (account', cap') ∨ state ≠ state') : (owner, cap) ≠ (owner', cap') := by
  rintro ⟨⟩
  obtain ⟨htab, hacc, -, hent⟩ := admissible_ok.mp h
  obtain ⟨htab', hacc', -, hent'⟩ := admissible_ok.mp h'
  cases htab.symm.trans htab'
  cases hent.symm.trans hent'
  rcases hne with hkey | hst
  · exact hkey (by rw [← hacc, ← hacc'])
  · exact hst rfl

theorem publication_spec (hs : s.Sound) (hval : Valid s.tables publication)
    (hsrc : ∀ source disposition, publication.source = some (source, disposition) →
      source ∈ s.escrows) : ∃ tables, s.tables.publishOne publication = some tables ∧
      Sound { s.settled publication with tables } ∧ Published tables publication ∧
      ChangedOnly s.tables tables (names publication) (accounts publication) := by
  obtain ⟨destination, source⟩ := publication
  obtain ⟨⟨table, hdst⟩, hsrcs⟩ := hval
  have hlive := hs.goLive hdst
  have hch := changedOnly_setEntry hdst (some ⟨destination.kind, .live⟩)
  have hupdate := update?_of_admissible hdst goLive
  cases source with
  | none =>
    refine ⟨s.tables.setEntry destination.owner table destination.cap (some ⟨destination.kind, .live⟩),
      ?_, hlive, ⟨record?_setEntry .., fun _ => nofun, fun _ => nofun⟩, hch⟩
    simp [publishOne, hupdate, goLive]
  | some pair =>
    obtain ⟨source, disposition⟩ := pair
    obtain ⟨sourceTable, hadm⟩ := hsrcs source disposition rfl
    have hne : (source.owner, source.cap) ≠ (destination.owner, destination.cap) :=
      names_ne hadm hdst (.inr nofun)
    obtain ⟨table', hadm'⟩ := hch.admissible _ _ _ _ _ _
      (fun hmem => hne (mem_singleton.mp hmem)) ⟨sourceTable, hadm⟩
    have hdst' : ∀ changed, record? ((s.tables.setEntry destination.owner table destination.cap
        (some ⟨destination.kind, .live⟩)).setEntry source.owner table' source.cap changed)
        destination.owner destination.cap = some ⟨destination.kind, .live⟩ := by
      intro changed
      rw [record?_setEntry_of_ne (admissible_ok.mp hadm').1 changed hne.symm]
      exact record?_setEntry ..
    cases disposition with
    | revoke =>
      refine ⟨_, ?_, hlive.revoke hadm', ⟨hdst' none, ?_, fun _ => nofun⟩,
        hch.trans (changedOnly_setEntry hadm' none)⟩
      · simp only [publishOne, hupdate, goLive]
        exact update?_of_admissible hadm' _
      · rintro _ ⟨⟩
        exact record?_setEntry ..
    | restore =>
      refine ⟨_, ?_, hlive.restore (hsrc source _ rfl) hadm', ⟨hdst' _, fun _ => nofun, ?_⟩,
        hch.trans (changedOnly_setEntry hadm' _)⟩
      · simp only [publishOne, hupdate, goLive]
        exact update?_of_admissible hadm' _
      · rintro _ ⟨⟩
        exact record?_setEntry ..

theorem settled_tables (s : CapabilitySystem) (tables : CapabilityTables) (publication : Publication) :
    { s with tables }.settled publication =
      { s.settled publication with tables } := by
  unfold settled
  split <;> rfl

theorem foldl_settled_tables (publications : List Publication) (s : CapabilitySystem)
    (tables tables' : CapabilityTables) :
    ({ publications.foldl settled { s with tables } with tables := tables' } : CapabilitySystem) =
      { publications.foldl settled s with tables := tables' } := by
  induction publications generalizing s with
  | nil => rfl
  | cons publication publications ih =>
    simp only [foldl_cons, settled_tables]
    exact ih (s.settled publication)

/-- Tokens that are held and valid name different records. -/
theorem key_ne_of_ne {α : Type} {tokens : List α} {key : α → ℕ × ℕ} (hnd : (tokens.map key).Nodup)
    {token other : α} (htok : token ∈ tokens) (hoth : other ∈ tokens) (hne : token ≠ other) :
    key token ≠ key other := fun hsame => hne (inj_on_of_nodup_map hnd htok hoth hsame)

theorem mem_sources
    (hmem : publication ∈ publications) {source : SourceEscrow} {disposition : SourceDisposition}
    (hsrc : publication.source = some (source, disposition)) : source ∈ sources publications :=
  mem_filterMap.mpr ⟨publication, hmem, by simp [hsrc]⟩

variable (hs : s.Sound)
include hs

/-- A publication of the rest of a batch does not name what the first one names. -/
theorem names_disjoint (hhs : s.Holds (publication :: publications))
    (hval : ∀ other ∈ publication :: publications, Valid s.tables other) {other : Publication}
    (hoth : other ∈ publications) : ∀ name ∈ names other, name ∉ names publication := by
  obtain ⟨hdsts, hsrcs, hrsvs, hesc⟩ := hhs
  obtain ⟨⟨_, hfst⟩, hfirstSource⟩ := hval publication mem_cons_self
  have hmem : other ∈ publication :: publications := mem_cons_of_mem _ hoth
  obtain ⟨⟨_, hsec⟩, hsecondSource⟩ := hval other hmem
  have hdst : other.destination ≠ publication.destination := by
    intro heq
    rw [map_cons, nodup_cons] at hdsts
    exact hdsts.1 (heq ▸ mem_map_of_mem hoth)
  have hkey := key_ne_of_ne hs.reservedOnce (hrsvs other hmem)
    (hrsvs publication mem_cons_self) hdst
  -- The destinations differ by their keys, the sources too, and the rest by their states.
  rintro _ hname hname'
  rcases mem_names.mp hname with rfl | ⟨source, disposition, hsrc, rfl⟩
  · rcases mem_names.mp hname' with heq | ⟨source, disposition, hsrc, heq⟩
    · exact names_ne hsec hfst (.inl hkey) heq
    · obtain ⟨_, hadm⟩ := hfirstSource source disposition hsrc
      exact names_ne hsec hadm (.inr nofun) heq
  · obtain ⟨_, hadm⟩ := hsecondSource source disposition hsrc
    rcases mem_names.mp hname' with heq | ⟨source', disposition', hsrc', heq⟩
    · exact names_ne hadm hfst (.inr nofun) heq
    · obtain ⟨_, hadm'⟩ := hfirstSource source' disposition' hsrc'
      have hne : source ≠ source' := by
        rintro rfl
        have hrest : sources (publication :: publications) = source :: sources publications := by
          simp [sources, hsrc']
        rw [hrest, nodup_cons] at hsrcs
        exact hsrcs.1 (mem_sources hoth hsrc)
      have hkey' := key_ne_of_ne hs.escrowedOnce (hesc source (mem_sources hmem hsrc))
        (hesc source' (mem_sources mem_cons_self hsrc')) hne
      exact names_ne hadm hadm' (.inl hkey') heq

omit hs in
theorem holds_settled (hhs : s.Holds (publication :: publications)) (tables : CapabilityTables) :
    Holds { s.settled publication with tables } publications := by
  obtain ⟨hdsts, hsrcs, hrsvs, hesc⟩ := hhs
  rw [map_cons, nodup_cons] at hdsts
  have hkept : ∀ other ∈ publications,
      other.destination ∈ s.reservations.erase publication.destination := by
    intro other hoth
    refine (mem_erase_of_ne ?_).mpr (hrsvs other (mem_cons_of_mem _ hoth))
    intro heq
    exact hdsts.1 (heq ▸ mem_map_of_mem hoth)
  cases hsrc : publication.source with
  | none =>
    have hrest : sources (publication :: publications) = sources publications := by
      simp [sources, hsrc]
    rw [hrest] at hsrcs hesc
    refine ⟨hdsts.2, hsrcs, ?_, ?_⟩
    · simp only [settled, hsrc]
      exact hkept
    · simp only [settled, hsrc]
      exact hesc
  | some pair =>
    obtain ⟨source, _⟩ := pair
    have hrest : sources (publication :: publications) = source :: sources publications := by
      simp [sources, hsrc]
    rw [hrest] at hsrcs hesc
    rw [nodup_cons] at hsrcs
    refine ⟨hdsts.2, hsrcs.2, ?_, ?_⟩
    · simp only [settled, hsrc]
      exact hkept
    · simp only [settled, hsrc]
      intro other hoth
      refine (mem_erase_of_ne ?_).mpr (hesc other (mem_cons_of_mem _ hoth))
      rintro rfl
      exact hsrcs.1 hoth

/-- After the first pass the second one does all it has to, and nothing else. -/
theorem batch_spec (hhs : s.Holds publications)
    (hval : ∀ publication ∈ publications, Valid s.tables publication) :
    ∃ tables, publications.foldlM publishOne s.tables = some tables ∧
      Sound { publications.foldl settled s with tables } ∧
      (∀ publication ∈ publications, Published tables publication) ∧
      ChangedOnly s.tables tables (publications.flatMap names) (publications.flatMap accounts) := by
  induction publications generalizing s with
  | nil =>
    exact ⟨s.tables, rfl, hs, fun _ h => absurd h not_mem_nil, fun _ _ _ => rfl, fun _ _ => rfl,
      fun _ _ _ _ _ _ _ h => h⟩
  | cons publication publications ih =>
    obtain ⟨tables₁, hap, hs₁, hpubl, hch⟩ := publication_spec hs (hval publication mem_cons_self)
      (fun source disposition hsrc => hhs.2.2.2 source (mem_sources mem_cons_self hsrc))
    have hdisj : ∀ other ∈ publications, ∀ name ∈ names other, name ∉ names publication :=
      fun _ hoth => names_disjoint hs hhs hval hoth
    have hval₁ : ∀ other ∈ publications, Valid tables₁ other := by
      intro other hoth
      obtain ⟨hdst, hsrc⟩ := hval other (mem_cons_of_mem _ hoth)
      refine ⟨hch.admissible _ _ _ _ _ _ ?_ hdst, fun source disposition heq => ?_⟩
      · exact hdisj other hoth _ mem_cons_self
      · refine hch.admissible _ _ _ _ _ _ ?_ (hsrc source disposition heq)
        exact hdisj other hoth _ (mem_names.mpr (.inr ⟨source, disposition, heq, rfl⟩))
    obtain ⟨tables, hfold, hs', hrest, hch'⟩ := ih hs₁ (holds_settled hhs tables₁) hval₁
    rw [foldl_settled_tables] at hs'
    refine ⟨tables, ?_, hs', fun other hoth => ?_, hch.trans hch'⟩
    · rw [foldlM_cons, hap]
      exact hfold
    · rcases mem_cons.mp hoth with rfl | hoth
      · -- The rest of the batch leaves the records of the first publication alone.
        have hkept : ∀ owner cap, (owner, cap) ∈ names other →
            record? tables owner cap = record? tables₁ owner cap := by
          intro owner cap hname
          refine hch'.entries owner cap fun hmem => ?_
          obtain ⟨later, hlat, hname'⟩ := mem_flatMap.mp hmem
          exact hdisj later hlat _ hname' hname
        obtain ⟨hdst, hrevo, hrestored⟩ := hpubl
        refine ⟨?_, fun source heq => ?_, fun source heq => ?_⟩
        · rw [hkept _ _ mem_cons_self]
          exact hdst
        · rw [hkept _ _ (mem_names.mpr (.inr ⟨source, _, heq, rfl⟩))]
          exact hrevo source heq
        · rw [hkept _ _ (mem_names.mpr (.inr ⟨source, _, heq, rfl⟩))]
          exact hrestored source heq
      · exact hrest other hoth

/-- A batch does all of its publications or none, and does not panic. -/
theorem publishBatch_spec (hhs : s.Holds publications) :
    (∃ error, s.tables.publishBatch publications = some (.error error, s.tables)) ∨
      ∃ tables, s.tables.publishBatch publications = some (.ok (), tables) ∧
        Sound { publications.foldl settled s with tables } ∧
        (∀ publication ∈ publications, Published tables publication) ∧
        ChangedOnly s.tables tables (publications.flatMap names) (publications.flatMap accounts) := by
  unfold publishBatch
  cases hvali : publications.forM s.tables.validate with
  | error error => exact .inl ⟨error, rfl⟩
  | ok =>
    obtain ⟨tables, hfold, hspec⟩ := batch_spec hs hhs (validate_batch hvali)
    refine .inr ⟨tables, ?_, hspec⟩
    simp only [hfold, map_some]

/-! ### Runs -/

theorem Sound.retireAddressSpace (owner : AddressSpaceId) : (s.step (.retire owner)).Sound := by
  simp only [step, retirement, CapabilityTables.retireAddressSpace]
  cases htab : s.tables.namespaces owner with
  | none => exact hs
  | some table =>
    have hrew : Sound { s with
        tables := s.tables.setNamespace owner (some { table with accepting := false }) } := by
      apply hs.rewrite htab
      · rfl
      · exact le_rfl
      · exact fun h => absurd h Bool.false_ne_true
      · exact fun cap entry => hs.serial owner table cap entry htab
      · intro token htok hacc
        exact ((hs.escrowed token htok).2 owner table htab hacc.symm).2.2
      · exact fun cap hev => ((hs.revoked table.account cap hev).2 owner table htab rfl).2
      · exact fun cap entry => hs.lived owner table cap entry htab
    refine hrew.logRetired (hs.onAccount htab ?_)
    rintro _ ⟨⟩
    rfl

theorem Sound.closeAddressSpace (owner : AddressSpaceId) : (s.step (.close owner)).Sound := by
  simp only [step, retirement]
  have hremo := hs.remove owner
  cases htab : s.tables.namespaces owner with
  | none => exact hremo
  | some => exact hremo.logRetired (hs.onAccount htab nofun)

theorem Sound.publish (token : Reservation) : (s.step (.publish token)).Sound := by
  simp only [step]
  by_cases htok : token ∉ s.reservations
  · rw [if_pos htok]
    exact hs
  · rw [if_neg htok]
    unfold CapabilityTables.publish
    cases hadm :
        s.tables.admissible token.owner token.cap token.kind token.account .staged false with
    | ok table => exact hs.goLive hadm
    | error error =>
      exact (hs.discard token.owner token.cap token.account .staged).release erase_sublist (.refl _)

theorem Sound.rollback (token : SourceEscrow) (allowRetired : Bool) :
    (s.step (.rollback token allowRetired)).Sound := by
  simp only [step]
  by_cases htok : token ∉ s.escrows
  · rw [if_pos htok]
    exact hs
  · rw [if_neg htok]
    unfold restoreInner
    cases hadm :
        s.tables.admissible token.owner token.cap token.kind token.account .escrow allowRetired with
    | ok table => exact hs.restore (not_not.mp htok) hadm
    | error error =>
      exact (hs.discard token.owner token.cap token.account .escrow).release (.refl _) erase_sublist

theorem Sound.step (operation : CapabilityOperation) : (s.step operation).Sound := by
  cases operation with
  | attach owner identity =>
    simp only [CapabilitySystem.step]
    split
    · exact hs
    · exact hs.attach owner identity
  | retire owner => exact hs.retireAddressSpace owner
  | close owner => exact hs.closeAddressSpace owner
  | detachNamespace handle =>
    simp only [CapabilitySystem.step, detachAddressSpace]
    split
    · exact hs
    · split
      · exact hs
      · exact hs.remove handle.id
  | reserve => exact hs.reserveCaptured ..
  | publish token => exact hs.publish token
  | discard token =>
    simp only [CapabilitySystem.step]
    split
    · exact hs
    · exact (hs.discard token.owner token.cap token.account .staged).release erase_sublist (.refl _)
  | escrow => exact hs.escrowCaptured ..
  | rollback => exact hs.rollback ..
  | dropEscrow token =>
    simp only [CapabilitySystem.step]
    split
    · exact hs
    · exact (hs.discard token.owner token.cap token.account .escrow).release (.refl _) erase_sublist
  | batch publications =>
    simp only [CapabilitySystem.step]
    by_cases hhs : ¬ s.Holds publications
    · rw [if_pos hhs]
      exact hs
    · rw [if_neg hhs]
      rcases publishBatch_spec hs (not_not.mp hhs) with ⟨_, h⟩ | ⟨_, h, hsett, -⟩
      · rw [h]
        exact hs
      · rw [h]
        exact hsett
  | detach owner cap kind | detachForTeardown owner cap kind => exact hs.retireRecord owner cap kind _

omit hs in
theorem sound_new : new.Sound where
  numbered _ _ := nofun
  single _ _ _ _ := nofun
  serial _ _ _ _ := nofun
  reserved _ := nofun
  reservedOnce := nodup_nil
  escrowed _ := nofun
  escrowedOnce := nodup_nil
  given _ _ := nofun
  revoked _ _ := nofun
  retired _ := nofun
  lived _ _ _ _ := nofun
  follows := List.Pairwise.nil
  livedBefore later earlier account cap h := by simp [new] at h

theorem Sound.run (operations : List CapabilityOperation) : (s.run operations).Sound := by
  induction operations generalizing s with
  | nil => exact hs
  | cons operation operations ih => exact ih (hs.step operation)

omit hs

/-! ### Tokens of other instances -/

theorem discardCaptured_frame (owner other : AddressSpaceId) (cap account : ℕ) (state : EntryState)
    (hoth : ∀ table, t.namespaces other = some table → table.account ≠ account) :
    (t.discardCaptured owner cap account state).namespaces other = t.namespaces other := by
  unfold discardCaptured
  split
  · rfl
  rename_i table hcpt
  obtain ⟨htab, hacc⟩ := filter_eq_some_iff.mp hcpt
  have hne : other ≠ owner := by
    rintro rfl
    exact hoth table htab (beq_iff_eq.mp hacc)
  split
  · rfl
  · split
    · exact namespaces_setEntry_of_ne _ _ _ hne
    · rfl

theorem admissible_frame
    (h : t.admissible owner cap kind account state allowRetired = .ok table) (changed : Option Entry)
    (hoth : ∀ table, t.namespaces other = some table → table.account ≠ account) :
    (t.setEntry owner table cap changed).namespaces other = t.namespaces other :=
  (changedOnly_setEntry h changed).namespaces other fun table htab hmem =>
    hoth table htab (mem_singleton.mp hmem)

end CapabilitySystem

/-- The accounts captured by the tokens that an operation uses. -/
def CapabilityOperation.captured : CapabilityOperation → Option (List ℕ)
  | .publish token | .discard token => some [token.account]
  | .rollback token _ | .dropEscrow token => some [token.account]
  | .batch publications => some (publications.flatMap CapabilitySystem.accounts)
  | _ => none

namespace CapabilitySystem

variable {s : CapabilitySystem}

/-- Tokens do nothing to namespaces that they were not taken from. -/
theorem Sound.frame (hs : s.Sound) {operation : CapabilityOperation} {captured : List ℕ}
    (hcpt : operation.captured = some captured) {owner : AddressSpaceId}
    (hoth : ∀ table, s.tables.namespaces owner = some table → table.account ∉ captured) :
    (s.step operation).tables.namespaces owner = s.tables.namespaces owner := by
  have hsg : ∀ account, some [account] = some captured →
      ∀ table, s.tables.namespaces owner = some table → table.account ≠ account := by
    rintro _ ⟨⟩ table htab rfl
    exact hoth table htab mem_cons_self
  cases operation with
  | publish token =>
    have hne := hsg _ hcpt
    simp only [CapabilitySystem.step, CapabilityTables.publish]
    split
    · rfl
    · cases hadm :
          s.tables.admissible token.owner token.cap token.kind token.account .staged false with
      | ok table => exact admissible_frame hadm _ hne
      | error error => exact discardCaptured_frame _ _ _ _ _ hne
  | rollback token allowRetired =>
    have hne := hsg _ hcpt
    simp only [CapabilitySystem.step, restoreInner]
    split
    · rfl
    · cases hadm :
          s.tables.admissible token.owner token.cap token.kind token.account .escrow allowRetired with
      | ok table => exact admissible_frame hadm _ hne
      | error error => exact discardCaptured_frame _ _ _ _ _ hne
  | discard token | dropEscrow token =>
    simp only [CapabilitySystem.step]
    split
    · rfl
    · exact discardCaptured_frame _ _ _ _ _ (hsg _ hcpt)
  | batch publications =>
    cases hcpt
    simp only [CapabilitySystem.step]
    by_cases hhs : ¬ s.Holds publications
    · rw [if_pos hhs]
    · rw [if_neg hhs]
      rcases publishBatch_spec hs (not_not.mp hhs) with ⟨_, h⟩ | ⟨_, h, -, -, hch⟩
      · rw [h]
      · rw [h]
        exact hch.namespaces owner hoth
  | _ => cases hcpt

/-! ### Safety -/

/-- What the table guarantees to the holders of capabilities. -/
structure NamespaceSafety (s : CapabilitySystem) : Prop where
  /-- No value is given out twice, and nothing that was revoked lives again. -/
  follows : s.log.Pairwise Follows
  /-- Nothing new lives after a retirement. -/
  livedBefore : LivedBefore s.log
  /-- The log misses no live capability. -/
  live : ∀ owner table cap kind, s.tables.namespaces owner = some table →
    table.objects cap = some ⟨kind, .live⟩ →
    .live table.account cap ∈ s.log ∧ .revoked table.account cap ∉ s.log
  batch : ∀ publications, s.Holds publications →
    (∃ error, s.tables.publishBatch publications = some (.error error, s.tables)) ∨
      ∃ tables, s.tables.publishBatch publications = some (.ok (), tables) ∧
        (∀ publication ∈ publications, Published tables publication) ∧
        ∀ owner cap, (owner, cap) ∉ publications.flatMap names →
          record? tables owner cap = record? s.tables owner cap
  /-- A token leaves alone every instance that it was not taken from. -/
  instances : ∀ operation captured owner, CapabilityOperation.captured operation = some captured →
    (∀ table, s.tables.namespaces owner = some table → table.account ∉ captured) →
    (s.step operation).tables.namespaces owner = s.tables.namespaces owner
  /-- An instance that is made later is not the one of a token. -/
  reservations : ∀ token ∈ s.reservations, token.account < s.tables.nextAccount
  escrows : ∀ token ∈ s.escrows, token.account < s.tables.nextAccount

theorem namespaces_are_safe (operations : List CapabilityOperation) :
    NamespaceSafety (new.run operations) := by
  have hs : (new.run operations).Sound := sound_new.run operations
  refine
    { follows := hs.follows
      livedBefore := hs.livedBefore
      live := fun owner table cap kind htab hent => ?_
      batch := fun publications hhs => ?_
      instances := fun operation captured owner hcpt hoth => hs.frame hcpt hoth
      reservations := fun token htok => (hs.reserved token htok).1
      escrows := fun token htok => (hs.escrowed token htok).1 }
  · exact ⟨hs.lived owner table cap _ htab hent nofun, hs.not_revoked htab hent⟩
  · rcases publishBatch_spec hs hhs with herror | ⟨tables, h, -, hpubl, hch⟩
    · exact .inl herror
    · exact .inr ⟨tables, h, hpubl, hch.entries⟩

/-- No two tokens are for one place of one namespace, and the source of an escrow stays in escrow
until its token is spent. -/
theorem tokens_are_exclusive (operations : List CapabilityOperation) :
    ((new.run operations).reservations.map fun token => (token.account, token.cap)).Nodup ∧
    ((new.run operations).escrows.map fun token => (token.account, token.cap)).Nodup ∧
    ∀ token ∈ (new.run operations).escrows, ∀ owner table entry,
      (new.run operations).tables.namespaces owner = some table → table.account = token.account →
      table.objects token.cap = some entry → owner = token.owner ∧ entry.state = .escrow := by
  have hs : (new.run operations).Sound := sound_new.run operations
  refine ⟨hs.reservedOnce, hs.escrowedOnce, fun token htok owner table entry htab hacc hent => ?_⟩
  obtain ⟨hown, -, hstate⟩ := (hs.escrowed token htok).2 owner table htab hacc
  exact ⟨hown, hstate entry hent⟩

end CapabilitySystem

end Charlotte.Kernel
