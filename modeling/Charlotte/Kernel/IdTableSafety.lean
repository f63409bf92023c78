import Charlotte.Kernel.IdTable

/-!
# Handles of an identifier table are safe

The tokens the callers hold are counted against the slots they name: a slot admits as many
leases as its count says, one closing token while it closes and one retirement token while it
is retiring. A free slot admits none, so a slot is handed out again only when no token names
it. The names given out carry the generation, which grows with every reuse.
-/

namespace Charlotte.Kernel

open Lib List Option Function Slot

variable {T : Type} {token : SlotToken}

/-- How many tokens of a kind a slot admits. -/
def Slot.admits (slot : Slot T) : TokenKind → ℕ
  | .lease => slot.leases
  | .closing => if slot.closing = true ∧ slot.retiring = false then 1 else 0
  | .retirement => if slot.retiring = true then 1 else 0

/-- The state of a slot whose identifier is free. -/
structure Slot.Idle (slot : Slot T) : Prop where
  element : slot.element = none
  retiring : slot.retiring = false
  closing : slot.closing = false
  leases : slot.leases = 0

theorem Slot.Idle.admits {slot : Slot T} (hi : slot.Idle) (kind : TokenKind) :
    slot.admits kind = 0 := by
  cases kind <;> simp [Slot.admits, hi.leases, hi.closing, hi.retiring]

/-- A slot whose identifier is not free: occupied, or retained by its retirement. -/
def Slot.Kept (slot : Slot T) : Prop :=
  slot.element.isSome = true ∧ slot.retiring = false ∨
    slot.element = none ∧ slot.retiring = true ∧ slot.leases = 0

variable (held : List SlotToken)

/-- The tokens of a kind that are held for a slot. -/
def outstanding (kind : TokenKind) (table id : ℕ) : ℕ :=
  held.countP fun token => token.kind = kind ∧ token.table = table ∧ token.id = id

theorem outstanding_cons (token : SlotToken) (kind : TokenKind) (table id : ℕ) :
    outstanding (token :: held) kind table id = outstanding held kind table id +
      if token.kind = kind ∧ token.table = table ∧ token.id = id then 1 else 0 := by
  simp [outstanding, countP_cons]

theorem outstanding_erase (h : token ∈ held) (kind : TokenKind) (table id : ℕ) :
    outstanding (held.erase token) kind table id = outstanding held kind table id -
      if token.kind = kind ∧ token.table = table ∧ token.id = id then 1 else 0 := by
  simp [outstanding, countP_erase, h]

theorem outstanding_pos {held : List SlotToken} (h : token ∈ held) :
    0 < outstanding held token.kind token.table token.id :=
  countP_pos_iff.mpr ⟨token, h, by simp⟩

namespace IdTable

/-- Every identifier is free, occupied or retained, and there is room to give it back. -/
structure Sound (t : IdTable T) : Prop where
  nodup : t.availableIds.Nodup
  idle : ∀ id ∈ t.availableIds, ∃ slot, t.slots[id]? = some slot ∧ slot.Idle
  kept : ∀ id slot, t.slots[id]? = some slot → id ∉ t.availableIds → slot.Kept
  room : t.slots.length ≤ t.availableCapacity

theorem sound_new (identity : ℕ) : (new identity : IdTable T).Sound where
  nodup := nodup_nil
  idle := fun id h => absurd h not_mem_nil
  kept := fun id slot h => by simp [new] at h
  room := le_refl 0

/-- The table after a step that changes one slot, or adds one. -/
structure Change (t t' : IdTable T) (id : ℕ) (slot : Slot T) : Prop where
  identity : t'.identity = t.identity
  here : t'.slots[id]? = some slot
  elsewhere : ∀ other, other ≠ id → t'.slots[other]? = t.slots[other]?

variable {t : IdTable T} {id : ℕ} {slot slot' : Slot T}

theorem change_setSlot (h : t.slots[id]? = some slot)
    (slot' : Slot T) : Change t (t.setSlot id slot') id slot' where
  identity := rfl
  here := by
    obtain ⟨hlt, _⟩ := List.getElem?_eq_some_iff.mp h
    simp [setSlot, hlt]
  elsewhere := fun other ho => by simp [setSlot, ho.symm]

theorem Change.release {t' : IdTable T} (hc : Change t t' id slot) (free : ℕ) :
    Change t (t'.release free) id slot := ⟨hc.identity, hc.here, hc.elsewhere⟩

variable (hs : t.Sound)
include hs

theorem Sound.resize {t' : IdTable T} (hsls : t'.slots = t.slots)
    (hav : t'.availableIds = t.availableIds) (hroom : t'.slots.length ≤ t'.availableCapacity) :
    t'.Sound where
  nodup := hav ▸ hs.nodup
  idle := by rw [hav, hsls]; exact hs.idle
  kept := by rw [hav, hsls]; exact hs.kept
  room := hroom

theorem Sound.idle_of_mem (h : t.slots[id]? = some slot) (hid : id ∈ t.availableIds) : slot.Idle := by
  obtain ⟨_, h', hi⟩ := hs.idle id hid
  cases h'.symm.trans h
  exact hi

theorem Sound.occupied (h : t.slots[id]? = some slot) (he : slot.element.isSome = true) :
    id ∉ t.availableIds ∧ slot.retiring = false := by
  have hid : id ∉ t.availableIds := fun hid => by simp [(hs.idle_of_mem h hid).element] at he
  rcases hs.kept id slot h hid with ⟨_, hr⟩ | ⟨hn, _⟩
  · exact ⟨hid, hr⟩
  · simp [hn] at he

/-- An identifier that is not free can be pushed without an allocation: the free ones are
distinct and all below the length, which the capacity covers. -/
theorem Sound.push_room (hlt : id < t.slots.length)
    (hid : id ∉ t.availableIds) : t.availableIds.length < t.availableCapacity := by
  have hsub : (id :: t.availableIds) ⊆ range t.slots.length := by
    intro other ho
    rcases mem_cons.mp ho with rfl | ho
    · exact mem_range.mpr hlt
    · obtain ⟨_, h, _⟩ := hs.idle other ho
      exact List.mem_range.mpr (List.getElem?_eq_some_iff.mp h).1
  have hle := (subperm_of_subset (nodup_cons.mpr ⟨hid, hs.nodup⟩) hsub).length_le
  rw [length_cons, length_range] at hle
  exact lt_of_lt_of_le hle hs.room

theorem Sound.setSlot (h : t.slots[id]? = some slot) (hid : id ∉ t.availableIds) (hk : slot'.Kept) :
    (t.setSlot id slot').Sound where
  nodup := hs.nodup
  idle := fun other ho => by
    rw [(change_setSlot h slot').elsewhere other (fun he => hid (he ▸ ho))]
    exact hs.idle other ho
  kept := fun other found hf ho => by
    by_cases he : other = id
    · rw [he, (change_setSlot h slot').here] at hf
      cases hf
      exact hk
    · rw [(change_setSlot h slot').elsewhere other he] at hf
      exact hs.kept other found hf ho
  room := by simpa [IdTable.setSlot] using hs.room

theorem Sound.release (h : t.slots[id]? = some slot) (hid : id ∉ t.availableIds) (hi : slot'.Idle) :
    ((t.setSlot id slot').release id).Sound where
  nodup := nodup_cons.mpr ⟨hid, hs.nodup⟩
  idle := fun other ho => by
    rcases mem_cons.mp ho with rfl | ho
    · exact ⟨slot', (change_setSlot h slot').here, hi⟩
    · obtain ⟨found, hf, hfi⟩ := hs.idle other ho
      exact ⟨found, ((change_setSlot h slot').elsewhere other fun he => hid (he ▸ ho)).trans hf, hfi⟩
  kept := fun other found hf ho => by
    have hne : other ≠ id := fun he => ho (he ▸ mem_cons_self)
    exact hs.kept other found (((change_setSlot h slot').elsewhere other hne).symm.trans hf)
      (fun hm => ho (mem_cons_of_mem _ hm))
  room := by simpa [IdTable.setSlot, IdTable.release] using hs.room

omit hs

/-! ### What the operations check -/

theorem active_eq_ok :
    t.active id = .ok slot ↔ t.slots[id]? = some slot ∧ slot.element.isSome = true := by
  simp only [active, okOr_bind_ok, ensure_bind_ok]
  constructor
  · rintro ⟨_, hf, he, heq⟩
    cases heq
    exact ⟨hf, he⟩
  · exact fun ⟨h, he⟩ => ⟨slot, h, he, rfl⟩

variable {token : SlotToken}

theorem named_eq_ok {error : IdTableError} :
    t.named token error = .ok slot ↔ token.table = t.identity ∧ t.slots[token.id]? = some slot ∧
      slot.element.isSome = true ∧ slot.generation = token.generation := by
  simp only [named, ensure_bind_ok, okOr_bind_ok, toOption_eq_some, active_eq_ok]
  constructor
  · rintro ⟨ht, _, ⟨hf, he⟩, hg, heq⟩
    cases heq
    exact ⟨ht, hf, he, hg⟩
  · exact fun ⟨ht, h, he, hg⟩ => ⟨ht, slot, ⟨h, he⟩, hg, rfl⟩

theorem validateClosing_eq_ok :
    t.validateClosing token = .ok slot ↔ token.table = t.identity ∧ t.slots[token.id]? = some slot ∧
      slot.element.isSome = true ∧ slot.generation = token.generation ∧
      slot.closing = true ∧ slot.retiring = false := by
  simp only [validateClosing, bind_eq_ok, named_eq_ok, ensure_eq_ok]
  constructor
  · rintro ⟨_, ⟨ht, hf, he, hg⟩, _, ⟨hc, hr⟩, heq⟩
    cases heq
    exact ⟨ht, hf, he, hg, hc, hr⟩
  · exact fun ⟨ht, h, he, hg, hc, hr⟩ => ⟨slot, ⟨ht, h, he, hg⟩, (), ⟨hc, hr⟩, rfl⟩

/-- The new occupant of a slot that was free or did not exist. -/
structure Placed (t t' : IdTable T) (id : ℕ) (slot : Slot T) (element : T) : Prop where
  change : Change t t' id slot
  sound : t'.Sound
  element : slot.element = some element
  fresh : id ∈ t.availableIds ∨ t.slots[id]? = none
  generation : ∀ old, t.slots[id]? = some old → old.generation < slot.generation

/-- An insertion into a sound table fails no assertion. -/
theorem Sound.place (hs : t.Sound) (element : T)
    (hroom : t.availableIds = [] → t.hasInsertionCapacity = true) :
    ∃ id t' slot, t.place element = some (id, t') ∧ Placed t t' id slot element := by
  cases hav : t.availableIds with
  | cons id rest =>
    obtain ⟨slot, hslot, hi⟩ := hs.idle id (hav ▸ mem_cons_self)
    obtain ⟨hnot, hnd⟩ := nodup_cons.mp (hav ▸ hs.nodup)
    have hpl : t.place element = some (id, { t.setSlot id
        { slot with generation := slot.generation + 1, element := some element } with
        availableIds := rest }) := by
      simp [IdTable.place, hav, hslot, hi.retiring, hi.closing, hi.leases, IdTable.setSlot]
    refine ⟨id, _, { slot with generation := slot.generation + 1, element := some element }, hpl, ?_⟩
    have hc := change_setSlot hslot
      { slot with generation := slot.generation + 1, element := some element }
    exact {
      change := ⟨rfl, hc.here, hc.elsewhere⟩
      sound := {
        nodup := hnd
        idle := fun other ho => by
          obtain ⟨found, hf, hfi⟩ := hs.idle other (hav ▸ mem_cons_of_mem _ ho)
          exact ⟨found, (hc.elsewhere other fun he => hnot (he ▸ ho)).trans hf, hfi⟩
        kept := fun other found hf ho => by
          by_cases he : other = id
          · rw [he] at hf
            cases hc.here.symm.trans hf
            exact .inl ⟨rfl, hi.retiring⟩
          · refine hs.kept other found ((hc.elsewhere other he).symm.trans hf) ?_
            rw [hav]
            exact fun hm => (mem_cons.mp hm).elim he ho
        room := by simpa [IdTable.setSlot] using hs.room }
      element := rfl
      fresh := .inl (hav ▸ mem_cons_self)
      generation := fun old ho => by
        cases hslot.symm.trans ho
        exact Nat.lt_succ_self _ }
  | nil =>
    have hcap := hroom hav
    simp only [hasInsertionCapacity, Bool.and_eq_true, decide_eq_true_eq] at hcap
    have hpl : t.place element = some (t.slots.length,
        { t with slots := t.slots ++ [⟨some element, 1, false, 0, false, false⟩] }) := by
      simp [IdTable.place, hav, hcap]
    refine ⟨_, _, ⟨some element, 1, false, 0, false, false⟩, hpl, ?_⟩
    have hnone : t.slots[t.slots.length]? = none := getElem?_eq_none (le_refl _)
    have hoth : ∀ other, other ≠ t.slots.length →
        (t.slots ++ [(⟨some element, 1, false, 0, false, false⟩ : Slot T)])[other]? = t.slots[other]? := by
      intro other ho
      by_cases hlt : other < t.slots.length
      · exact getElem?_append_left hlt
      · rw [getElem?_eq_none (by simp; omega), getElem?_eq_none (by omega)]
    exact {
      change := ⟨rfl, by simp, hoth⟩
      sound := {
        nodup := hs.nodup
        idle := fun other ho => absurd (hav ▸ ho) not_mem_nil
        kept := fun other found hf ho => by
          by_cases he : other = t.slots.length
          · subst he
            simp only [getElem?_concat_length] at hf
            cases hf
            exact .inl ⟨rfl, rfl⟩
          · exact hs.kept other found ((hoth other he).symm.trans hf) ho
        room := by simpa using Nat.succ_le_of_lt hcap.2 }
      element := rfl
      fresh := .inr hnone
      generation := fun old ho => (nomatch hnone.symm.trans ho) }

/-- The table still owes the bearer of the token what the token says. -/
def Current (t : IdTable T) (token : SlotToken) : Prop :=
  token.table = t.identity ∧ ∃ slot, t.slots[token.id]? = some slot ∧
    slot.generation = token.generation ∧ 0 < slot.admits token.kind

theorem named_or (t : IdTable T) (token : SlotToken) (error : IdTableError) :
    (∃ slot, t.named token error = .ok slot) ∨ t.named token error = .error error := by
  simp only [named, ensure, okOr]
  by_cases ht : token.table = t.identity
  · cases (t.active token.id).toOption with
    | none => simp [ht, bind, Except.bind]
    | some slot => by_cases hg : slot.generation = token.generation <;> simp [ht, hg, bind, Except.bind, pure, Except.pure]
  · simp [ht, bind, Except.bind]

theorem finishLease_of_not_current (hkind : token.kind = .lease)
    (hn : ¬ t.Current token) : t.finishLease token = .error .wrongLease := by
  rcases t.named_or token .wrongLease with ⟨slot, h⟩ | h
  · obtain ⟨ht, hslot, _, hg⟩ := named_eq_ok.mp h
    have hzero : ¬ (slot.retiring = false ∧ slot.leases ≠ 0) := fun hc =>
      hn ⟨ht, slot, hslot, hg, by rw [hkind]; exact pos_of_ne_zero hc.2⟩
    simp only [finishLease, h]
    exact ensure_bind_of_not _ hzero
  · simp only [finishLease, h]
    rfl

theorem validateClosing_of_not_current (hkind : token.kind = .closing)
    (hn : ¬ t.Current token) : t.validateClosing token = .error .wrongRetirement := by
  rcases t.named_or token .wrongRetirement with ⟨slot, h⟩ | h
  · obtain ⟨ht, hslot, _, hg⟩ := named_eq_ok.mp h
    have hopen : ¬ (slot.closing = true ∧ slot.retiring = false) := fun hc =>
      hn ⟨ht, slot, hslot, hg, by rw [hkind, admits, if_pos hc]; exact one_pos⟩
    simp only [validateClosing, h]
    exact ensure_bind_of_not _ hopen
  · simp only [validateClosing, h]
    rfl

theorem finishRetirement_of_not_current (hkind : token.kind = .retirement) (hn : ¬ t.Current token) :
    t.finishRetirement token = .error .wrongRetirement := by
  by_cases ht : token.table = t.identity
  · cases hslot : t.slots[token.id]? with
    | none =>
      simp only [finishRetirement, hslot, ensure, if_pos ht]
      rfl
    | some slot =>
      have hkept : ¬ (slot.retiring = true ∧ slot.generation = token.generation ∧ slot.leases = 0) :=
        fun hc => hn ⟨ht, slot, hslot, hc.2.1, by rw [hkind, admits, if_pos hc.1]; exact one_pos⟩
      simp only [finishRetirement, hslot]
      rw [ensure, if_pos ht]
      exact ensure_bind_of_not _ hkept
  · exact ensure_bind_of_not _ ht

end IdTable

open IdTable

/-! ### The names and the tokens of a slot -/

/-- The names given out and the tokens held agree with the slot they are about. -/
structure SlotSound (held : List SlotToken) (names : List (Name T)) (table id : ℕ) (slot : Slot T) :
    Prop where
  admitted : ∀ kind, outstanding held kind table id ≤ slot.admits kind
  current : ∀ token ∈ held, token.table = table → token.id = id → token.generation = slot.generation
  past : ∀ name ∈ names, name.table = table → name.id = id → name.generation ≤ slot.generation
  own : ∀ element, slot.element = some element → ⟨table, id, slot.generation, element⟩ ∈ names

/-- The key of a name: what a handle consists of. -/
def Name.key (name : Name T) : ℕ × ℕ × ℕ := (name.table, name.id, name.generation)

namespace IdTables

structure Sound (w : IdTables T) : Prop where
  identity : ∀ k t, w.tables k = some t → t.identity = k ∧ k < w.nextIdentity
  table : ∀ k t, w.tables k = some t → t.Sound
  slot : ∀ k t id slot, w.tables k = some t → t.slots[id]? = some slot →
    SlotSound w.held w.names k id slot
  heldKnown : ∀ token ∈ w.held, token.table < w.nextIdentity ∧
    ∀ t, w.tables token.table = some t → (t.slots[token.id]?).isSome = true
  namesKnown : ∀ name ∈ w.names, name.table < w.nextIdentity ∧
    ∀ t, w.tables name.table = some t → (t.slots[name.id]?).isSome = true
  unique : (w.names.map Name.key).Nodup

theorem sound_start : (start : IdTables T).Sound where
  identity := nofun
  table := nofun
  slot := nofun
  heldKnown := nofun
  namesKnown := nofun
  unique := nodup_nil

/-- The tokens held after a step that concerns one slot. -/
structure Near (held held' : List SlotToken) (table id : ℕ) : Prop where
  count : ∀ kind k i, (k = table → i ≠ id) → outstanding held' kind k i ≤ outstanding held kind k i
  mem : ∀ token ∈ held', token ∈ held ∨ token.table = table ∧ token.id = id

theorem Near.refl (table id : ℕ) : Near held held table id :=
  ⟨fun _ _ _ _ => le_refl _, fun _ h => .inl h⟩

theorem Near.erase (token : SlotToken) (table id : ℕ) : Near held (held.erase token) table id :=
  ⟨fun _ _ _ _ => erase_sublist.countP_le, fun _ h => .inl (mem_of_mem_erase h)⟩

variable {held} {token : SlotToken}

theorem Near.cons {held' : List SlotToken}
    (hn : Near held held' token.table token.id) : Near held (token :: held') token.table token.id where
  count := fun kind k i h => by
    rw [outstanding_cons, if_neg (fun hc => h hc.2.1.symm hc.2.2.symm)]
    exact hn.count kind k i h
  mem := forall_mem_cons.mpr ⟨.inr ⟨rfl, rfl⟩, hn.mem⟩

variable {w : IdTables T} {t t' : IdTable T} {id : ℕ} {slot : Slot T}

/-- A step that concerns one slot keeps everything, when the slot agrees with its own names
and tokens afterwards. -/
theorem Sound.change (hs : w.Sound)
    (ht : w.tables t.identity = some t) (hc : Change t t' id slot) (ht' : t'.Sound)
    (hheld : Near w.held held t.identity id) {names : List (Name T)}
    (hkept : ∀ name ∈ w.names, name ∈ names)
    (hnms : ∀ name ∈ names, name ∈ w.names ∨ name.table = t.identity ∧ name.id = id)
    (huni : (names.map Name.key).Nodup) (hslot : SlotSound held names t.identity id slot) :
    Sound { w.setTable t' with held, names } := by
  have hat : ∀ k t₀, (w.setTable t').tables k = some t₀ →
      k = t.identity ∧ t₀ = t' ∨ k ≠ t.identity ∧ w.tables k = some t₀ := by
    intro k t₀ h
    rw [setTable, hc.identity] at h
    exact (update_eq_some h).imp_left fun h => ⟨h.1, (some.inj h.2).symm⟩
  have hkn : ∀ {k i}, (∀ t₀, w.tables k = some t₀ → (t₀.slots[i]?).isSome = true) ∨
      k = t.identity ∧ i = id → ∀ t₀, (w.setTable t').tables k = some t₀ → (t₀.slots[i]?).isSome = true := by
    intro k i h t₀ h₀
    by_cases hi : i = id ∧ k = t.identity
    · rcases hat k t₀ h₀ with ⟨_, rfl⟩ | ⟨hk, _⟩
      · rw [hi.1, hc.here]
        rfl
      · exact absurd hi.2 hk
    · rcases h with h | h
      · rcases hat k t₀ h₀ with ⟨rfl, rfl⟩ | ⟨_, h₀⟩
        · rw [hc.elsewhere i fun he => hi ⟨he, rfl⟩]
          exact h t ht
        · exact h t₀ h₀
      · exact absurd ⟨h.2, h.1⟩ hi
  have hlt := (hs.identity _ _ ht).2
  exact {
    identity := fun k t₀ h => by
      rcases hat k t₀ h with ⟨rfl, rfl⟩ | ⟨_, h⟩
      · exact ⟨hc.identity, hlt⟩
      · exact hs.identity k t₀ h
    table := fun k t₀ h => by
      rcases hat k t₀ h with ⟨rfl, rfl⟩ | ⟨_, h⟩
      · exact ht'
      · exact hs.table k t₀ h
    slot := fun k t₀ i found h hf => by
      by_cases hi : i = id ∧ k = t.identity
      · obtain ⟨rfl, rfl⟩ := hi
        rcases hat _ t₀ h with ⟨_, rfl⟩ | ⟨hk, _⟩
        · rw [hc.here] at hf
          cases hf
          exact hslot
        · exact absurd rfl hk
      · have hi' : k = t.identity → i ≠ id := fun hk he => hi ⟨he, hk⟩
        have hold : SlotSound w.held w.names k i found := by
          rcases hat k t₀ h with ⟨rfl, rfl⟩ | ⟨_, h⟩
          · rw [hc.elsewhere i (hi' rfl)] at hf
            exact hs.slot _ t i found ht hf
          · exact hs.slot k t₀ i found h hf
        exact {
          admitted := fun kind => le_trans (hheld.count kind k i hi') (hold.admitted kind)
          current := fun token hm hk he => by
            rcases hheld.mem token hm with hm | ⟨hk', he'⟩
            · exact hold.current token hm hk he
            · exact absurd (he.symm.trans he') (hi' (hk.symm.trans hk'))
          past := fun name hm hk he => by
            rcases hnms name hm with hm | ⟨hk', he'⟩
            · exact hold.past name hm hk he
            · exact absurd (he.symm.trans he') (hi' (hk.symm.trans hk'))
          own := fun element he => hkept _ (hold.own element he) }
    heldKnown := fun token hm => by
      rcases hheld.mem token hm with hm | hm
      · exact ⟨(hs.heldKnown token hm).1, hkn (.inl (hs.heldKnown token hm).2)⟩
      · exact ⟨hm.1 ▸ hlt, hkn (.inr hm)⟩
    namesKnown := fun name hm => by
      rcases hnms name hm with hm | hm
      · exact ⟨(hs.namesKnown name hm).1, hkn (.inl (hs.namesKnown name hm).2)⟩
      · exact ⟨hm.1 ▸ hlt, hkn (.inr hm)⟩
    unique := huni }

theorem Sound.setTable (hs : w.Sound)
    (ht : w.tables t.identity = some t) (hc : Change t t' id slot) (ht' : t'.Sound)
    (hheld : Near w.held held t.identity id) (hslot : SlotSound held w.names t.identity id slot) :
    Sound { w.setTable t' with held } :=
  hs.change ht hc ht' hheld (fun _ h => h) (fun _ h => .inl h) hs.unique hslot

/-- The slot as it was agrees with what is held and named. -/
theorem Sound.at (hs : w.Sound) (ht : w.tables t.identity = some t) (h : t.slots[id]? = some slot) :
    SlotSound w.held w.names t.identity id slot := hs.slot _ t id slot ht h

theorem Sound.consume (hs : w.Sound) (token : SlotToken) : (w.consume token).Sound :=
  { hs with
    slot := fun k t id slot ht h =>
      { hs.slot k t id slot ht h with
        admitted := fun kind => 
          le_trans erase_sublist.countP_le ((hs.slot k t id slot ht h).admitted kind)
        current := fun other ho => (hs.slot k t id slot ht h).current other (mem_of_mem_erase ho) }
    heldKnown := fun other ho => hs.heldKnown other (mem_of_mem_erase ho) }

theorem Sound.resize (hs : w.Sound)
    (ht : w.tables t.identity = some t) (hid : t'.identity = t.identity) (hsls : t'.slots = t.slots)
    (ht' : t'.Sound) : (w.setTable t').Sound := by
  have hat : ∀ k t₀, (w.setTable t').tables k = some t₀ →
      ∃ t₁, w.tables k = some t₁ ∧ t₀.identity = t₁.identity ∧ t₀.slots = t₁.slots ∧ t₀.Sound := by
    intro k t₀ h
    rw [IdTables.setTable, hid] at h
    rcases update_eq_some h with ⟨rfl, ⟨⟩⟩ | ⟨-, h⟩
    · exact ⟨t, ht, hid, hsls, ht'⟩
    · exact ⟨t₀, h, rfl, rfl, hs.table k t₀ h⟩
  exact {
    identity := fun k t₀ h => by
      obtain ⟨t₁, h₁, he, -⟩ := hat k t₀ h
      exact he ▸ hs.identity k t₁ h₁
    table := fun k t₀ h => by
      obtain ⟨_, _, _, _, hsd⟩ := hat k t₀ h
      exact hsd
    slot := fun k t₀ id slot h hslot => by
      obtain ⟨t₁, h₁, _, he, _⟩ := hat k t₀ h
      exact hs.slot k t₁ id slot h₁ (he ▸ hslot)
    heldKnown := fun token hm => ⟨(hs.heldKnown token hm).1, fun t₀ h => by
      obtain ⟨t₁, h₁, _, he, _⟩ := hat _ t₀ h
      exact he ▸ (hs.heldKnown token hm).2 t₁ h₁⟩
    namesKnown := fun name hm => ⟨(hs.namesKnown name hm).1, fun t₀ h => by
      obtain ⟨t₁, h₁, _, he, _⟩ := hat _ t₀ h
      exact he ▸ (hs.namesKnown name hm).2 t₁ h₁⟩
    unique := hs.unique }

/-! ### Each operation -/

section Operations

variable {w : IdTables T} (hs : w.Sound) {t : IdTable T} (ht : w.tables t.identity = some t)

include hs ht

variable {id : ℕ}

/-- No token is held for an identifier that is free, or that does not exist yet. -/
theorem Sound.unheld (h : id ∈ t.availableIds ∨ t.slots[id]? = none) :
    ∀ token ∈ w.held, token.table = t.identity → token.id ≠ id := by
  intro token hm hk he
  have hkn := (hs.heldKnown token hm).2 t (hk ▸ ht)
  rcases h with h | h
  · obtain ⟨_, hslot, hi⟩ := (hs.table _ t ht).idle id h
    have hle := (hs.at ht hslot).admitted token.kind
    rw [hi.admits, ← hk, ← he] at hle
    exact absurd (outstanding_pos hm) (by omega)
  · rw [he, h] at hkn
    cases hkn

variable {slot : Slot T}

theorem Sound.setKept (hslot : t.slots[id]? = some slot)
    (hid : id ∉ t.availableIds) (slot' : Slot T) (hk : slot'.Kept) (held : List SlotToken)
    (hheld : Near w.held held t.identity id) (hslot' : SlotSound held w.names t.identity id slot') :
    Sound { w.setTable (t.setSlot id slot') with held } :=
  hs.setTable ht (change_setSlot hslot _) ((hs.table _ t ht).setSlot hslot hid hk) hheld hslot'

theorem Sound.setIdle (hslot : t.slots[id]? = some slot)
    (hid : id ∉ t.availableIds) (slot' : Slot T) (hi : slot'.Idle) (held : List SlotToken)
    (hheld : Near w.held held t.identity id) (hslot' : SlotSound held w.names t.identity id slot') :
    Sound { w.setTable ((t.setSlot id slot').release id) with held } :=
  hs.setTable ht ((change_setSlot hslot _).release id)
    ((hs.table _ t ht).release hslot hid hi) hheld hslot'

variable {element : T} {t' : IdTable T}

theorem Sound.takeElement (h : t.takeElement id = .ok (element, t')) : (w.setTable t').Sound := by
  simp only [IdTable.takeElement, bind_eq_ok, IdTable.active_eq_ok, ensure_eq_ok, okOr_eq_ok] at h
  obtain ⟨slot, ⟨hslot, he⟩, _, hclos, _, hleases, _, _, _, _, heq⟩ := h
  cases heq
  obtain ⟨hid, hr⟩ := (hs.table _ t ht).occupied hslot he
  have hold := hs.at ht hslot
  apply hs.setIdle ht hslot hid { slot with element := none } ⟨rfl, hr, hclos, hleases⟩ w.held
    (Near.refl ..)
  exact { hold with own := fun element he => (nomatch he) }

variable {token : SlotToken}

theorem Sound.addLease (hslot : t.slots[id]? = some slot) (he : slot.element.isSome = true)
    (h : t.addLease id slot = .ok (token, t')) : ((w.setTable t').hold token).Sound := by
  simp only [IdTable.addLease, ensure_bind_ok] at h
  obtain ⟨_, heq⟩ := h
  cases heq
  obtain ⟨hid, hr⟩ := (hs.table _ t ht).occupied hslot he
  have hold := hs.at ht hslot
  apply hs.setKept ht hslot hid { slot with leases := slot.leases + 1 } (.inl ⟨he, hr⟩)
    (⟨.lease, t.identity, id, slot.generation⟩ :: w.held) (Near.cons (Near.refl ..))
  exact { hold with
    admitted := fun kind => by
      have hle := hold.admitted kind
      rw [outstanding_cons]
      cases kind <;> simp_all [admits]
    current := forall_mem_cons.mpr ⟨fun _ _ => rfl, hold.current⟩ }

variable {generation : ℕ}

theorem Sound.lease
    (h : t.lease id generation = .ok (token, t')) : ((w.setTable t').hold token).Sound := by
  simp only [IdTable.lease, bind_eq_ok, IdTable.active_eq_ok] at h
  obtain ⟨_, ⟨hslot, he⟩, _, _, _, _, h⟩ := h
  exact hs.addLease ht hslot he h

theorem Sound.leaseForClose {owner : SlotToken} {peer : ℕ}
    (h : t.leaseForClose owner peer generation = .ok (token, t')) :
    ((w.setTable t').hold token).Sound := by
  simp only [IdTable.leaseForClose, bind_eq_ok, IdTable.active_eq_ok] at h
  obtain ⟨_, _, _, _, _, ⟨hslot, he⟩, _, _, _, _, h⟩ := h
  exact hs.addLease ht hslot he h

theorem Sound.finishLease (hm : token ∈ w.held) (hkind : token.kind = .lease)
    (h : t.finishLease token = .ok t') : ((w.consume token).setTable t').Sound := by
  simp only [IdTable.finishLease, bind_eq_ok, IdTable.named_eq_ok, ensure_eq_ok] at h
  obtain ⟨slot, ⟨_, hslot, he, _⟩, _, _, heq⟩ := h
  cases heq
  obtain ⟨hid, hr⟩ := (hs.table _ t ht).occupied hslot he
  have hold := hs.at ht hslot
  apply hs.setKept ht hslot hid { slot with leases := slot.leases - 1 } (.inl ⟨he, hr⟩)
    (w.held.erase token) (Near.erase ..)
  exact { hold with
    admitted := fun kind => by
      have hle := hold.admitted kind
      rw [outstanding_erase _ hm]
      cases kind <;> simp_all [admits]
      omega
    current := fun other ho => hold.current other (mem_of_mem_erase ho) }

theorem Sound.sealClose (h : t.sealClose token = .ok t') : (w.setTable t').Sound := by
  simp only [IdTable.sealClose, bind_eq_ok, IdTable.validateClosing_eq_ok] at h
  obtain ⟨slot, ⟨_, hslot, he, _, _, hr⟩, _, _, heq⟩ := h
  cases heq
  have hid := ((hs.table _ t ht).occupied hslot he).1
  have hold := hs.at ht hslot
  apply hs.setKept ht hslot hid { slot with cleanupSealed := true } (.inl ⟨he, hr⟩) w.held (Near.refl ..)
  exact { hold with }

theorem Sound.beginClose
    (h : t.beginClose id generation = .ok (token, t')) : ((w.setTable t').hold token).Sound := by
  simp only [IdTable.beginClose, bind_eq_ok, IdTable.active_eq_ok, ensure_eq_ok] at h
  obtain ⟨slot, ⟨hslot, he⟩, _, hgen, _, _, _, _, heq⟩ := h
  cases heq
  obtain ⟨hid, hr⟩ := (hs.table _ t ht).occupied hslot he
  have hold := hs.at ht hslot
  apply hs.setKept ht hslot hid { slot with closing := true } (.inl ⟨he, hr⟩)
    (⟨.closing, t.identity, id, generation⟩ :: w.held) (Near.cons (Near.refl ..))
  exact { hold with
    admitted := fun kind => by
      have hle := hold.admitted kind
      rw [outstanding_cons]
      cases kind <;> simp_all [admits]
    current := forall_mem_cons.mpr ⟨fun _ _ => hgen.symm, hold.current⟩ }

theorem Sound.retireClosing {retired : SlotToken} (hm : token ∈ w.held)
    (hkind : token.kind = .closing) (h : t.retireClosing token = .ok (element, retired, t')) :
    (((w.consume token).setTable t').hold retired).Sound := by
  simp only [IdTable.retireClosing, bind_eq_ok, IdTable.validateClosing_eq_ok, ensure_eq_ok,
    okOr_eq_ok] at h
  obtain ⟨slot, ⟨htab, hslot, he, hgen, _, _⟩, _, _, _, hleases, _, _, _, _, heq⟩ := h
  cases heq
  have hid := ((hs.table _ t ht).occupied hslot he).1
  have hold := hs.at ht hslot
  have hnear : Near w.held ({ token with kind := .retirement } :: w.held.erase token) t.identity token.id :=
    htab ▸ Near.cons (Near.erase ..)
  apply hs.setKept ht hslot hid { slot with element := none, retiring := true }
    (.inr ⟨rfl, rfl, hleases⟩) _ hnear
  exact { hold with
    admitted := fun kind => by
      have hle := hold.admitted kind
      rw [outstanding_cons, outstanding_erase _ hm]
      cases kind <;> simp_all [admits]
    current := forall_mem_cons.mpr
      ⟨fun _ _ => hgen.symm, fun other ho => hold.current other (mem_of_mem_erase ho)⟩
    own := fun element he => (nomatch he) }

theorem Sound.finishRetirement (hm : token ∈ w.held)
    (hkind : token.kind = .retirement) (h : t.finishRetirement token = .ok t') :
    ((w.consume token).setTable t').Sound := by
  simp only [IdTable.finishRetirement, bind_eq_ok, ensure_eq_ok, okOr_eq_ok] at h
  obtain ⟨_, _, slot, hslot, _, ⟨hreti, _, hleases⟩, _, _, heq⟩ := h
  cases heq
  have hold := hs.at ht hslot
  have hsd := hs.table _ t ht
  have hid : token.id ∉ t.availableIds := fun hid =>
    Bool.noConfusion ((hsd.idle_of_mem hslot hid).retiring.symm.trans hreti)
  have helem : slot.element = none := by
    rcases hsd.kept _ slot hslot hid with ⟨_, hr⟩ | ⟨hn, _⟩
    · exact Bool.noConfusion (hr.symm.trans hreti)
    · exact hn
  apply hs.setIdle ht hslot hid { slot with retiring := false, closing := false, cleanupSealed := false }
    ⟨helem, rfl, rfl, hleases⟩ (w.held.erase token) (Near.erase ..)
  exact { hold with
    admitted := fun kind => by
      have hle := hold.admitted kind
      rw [outstanding_erase _ hm]
      cases kind <;> simp_all [admits]
    current := fun other ho => hold.current other (mem_of_mem_erase ho) }

/-- The new occupant of a slot gets a name that was never given out. -/
theorem Sound.placed (hp : Placed t t' id slot element) :
    ((w.setTable t').logName t' element (.ok id)).Sound := by
  have hunheld := hs.unheld ht hp.fresh
  have hpast : ∀ name ∈ w.names, name.table = t.identity → name.id = id → name.generation < slot.generation := by
    intro name hm hk he
    have hkn := (hs.namesKnown name hm).2 t (hk ▸ ht)
    rw [he] at hkn
    obtain ⟨old, ho⟩ := isSome_iff_exists.mp hkn
    exact lt_of_le_of_lt ((hs.at ht ho).past name hm hk he) (hp.generation old ho)
  have hlog : (w.setTable t').logName t' element (.ok id) =
      { w.setTable t' with names := ⟨t.identity, id, slot.generation, element⟩ :: w.names } := by
    simp only [logName, hp.change.here, hp.change.identity]
    rfl
  rw [hlog]
  apply hs.change ht hp.change hp.sound (Near.refl w.held _ _) (fun name hm => mem_cons_of_mem _ hm)
  · exact forall_mem_cons.mpr ⟨.inr ⟨rfl, rfl⟩, fun _ => .inl⟩
  · rw [map_cons, nodup_cons]
    refine ⟨fun hm => ?_, hs.unique⟩
    obtain ⟨name, hname, hkey⟩ := mem_map.mp hm
    simp only [Name.key, Prod.mk.injEq] at hkey
    have hlt := hpast name hname hkey.1 hkey.2.1
    omega
  · exact {
      admitted := fun kind => by
        have hzero : outstanding w.held kind t.identity id = 0 := by
          simp only [outstanding, countP_eq_zero, decide_eq_true_eq]
          exact fun token hm hc => hunheld token hm hc.2.1 hc.2.2
        rw [hzero]
        exact Nat.zero_le _
      current := fun token hm hk he => absurd he (hunheld token hm hk)
      past := forall_mem_cons.mpr
        ⟨fun _ _ => le_refl _, fun name hm hk he => le_of_lt (hpast name hm hk he)⟩
      own := fun other ho => by
        rw [hp.element] at ho
        cases ho
        exact mem_cons_self }

end Operations

theorem setTable_self (ht : w.tables t.identity = some t) : w.setTable t = w := by
  simp only [setTable]
  rw [update_eq_self_iff.mpr ht.symm]

theorem setTable_setTable (w : IdTables T) (h : t'.identity = t.identity) :
    (w.setTable t).setTable t' = w.setTable t' := by
  simp [setTable, h]

/-! ### Every request -/

theorem le_tryReserve {capacity length additional result : ℕ} {spare : Option ℕ}
    (h : tryReserve capacity length additional spare = some result) :
    length + additional ≤ result := by
  unfold tryReserve at h
  split at h
  · rename_i hle
    cases h
    exact hle
  · obtain ⟨_, _, rfl⟩ := map_eq_some_iff.mp h
    exact Nat.le_add_right _ _

section Requests

variable {w : IdTables T} (hs : w.Sound) {t : IdTable T} (ht : w.tables t.identity = some t)

include hs ht

/-- A placement is logged and answered, also when the capacities grew just before. -/
theorem Sound.place (element : T) (t₁ : IdTable T) (hid : t₁.identity = t.identity)
    (hsls : t₁.slots = t.slots) (hav : t₁.availableIds = t.availableIds)
    (hroom : t₁.slots.length ≤ t₁.availableCapacity)
    (hcap : t.availableIds = [] → t₁.hasInsertionCapacity = true) :
    ∃ id t', t₁.place element = some (id, t') ∧ ((w.setTable t').logName t' element (.ok id)).Sound ∧
      (id ∈ t.availableIds ∨ t.slots[id]? = none) := by
  have hsd₁ := (hs.table _ t ht).resize hsls hav hroom
  have hw := hs.resize ht hid hsls hsd₁
  obtain ⟨id, t', _, hpl, hp⟩ := hsd₁.place element (hav ▸ hcap)
  have hlgd := hw.placed (update_self ..) hp
  rw [setTable_setTable w hp.change.identity] at hlgd
  exact ⟨id, t', hpl, hlgd, hav ▸ hsls ▸ hp.fresh⟩

/-- A refused insertion changes nothing; an accepted one is a placement, after the growth it
was offered has been installed if that was needed. -/
theorem Sound.tryInsertFrom (element : T) (growth : Option PreparedGrowth) :
    ∃ answer t' growth', t.tryInsertFrom element growth = some (answer, t', growth') ∧
      ((w.setTable t').logName t' element answer).Sound ∧ (∀ error, answer = .error error → t' = t) ∧
      ∀ id, answer = .ok id → id ∈ t.availableIds ∨ t.slots[id]? = none := by
  have hrfs : ∀ error, ((w.setTable t).logName t element (.error error)).Sound := fun _ => by
    rw [logName, setTable_self ht]
    exact hs
  have hpld := hs.place ht element t rfl rfl rfl (hs.table _ t ht).room
  unfold IdTable.tryInsertFrom
  cases hav : t.availableIds with
  | cons id =>
    obtain ⟨_, hslot, _⟩ := (hs.table _ t ht).idle id (hav ▸ mem_cons_self)
    obtain ⟨_, _, hpl, hsd, hfr⟩ := hpld (fun h => (nomatch hav.symm.trans h))
    simp only [hslot, bind_eq_bind, bind_some]
    split
    · exact ⟨_, _, _, rfl, hrfs _, fun _ _ => rfl, nofun⟩
    · rw [hpl]
      exact ⟨_, _, _, rfl, hsd, nofun, fun id h => by cases h; exact hav ▸ hfr⟩
  | nil =>
    simp only
    split
    · rename_i hcap
      obtain ⟨_, _, hpl, hsd, hfr⟩ := hpld (fun _ => hcap)
      rw [hpl]
      exact ⟨_, _, _, rfl, hsd, nofun, fun id h => by cases h; exact hav ▸ hfr⟩
    · cases growth with
      | none => exact ⟨_, _, _, rfl, hrfs _, fun _ _ => rfl, nofun⟩
      | some growth =>
        simp only
        cases hins : t.installGrowth growth with
        | error => exact ⟨_, _, _, rfl, hrfs _, fun _ _ => rfl, nofun⟩
        | ok installed =>
          obtain ⟨_, _⟩ := installed
          simp only [installGrowth, ensure_bind_ok] at hins
          obtain ⟨_, hlarge, heq⟩ := hins
          cases heq
          obtain ⟨_, _, hpl, hsd, hfr⟩ := hs.place ht element
            { t with listCapacity := growth.capacity, slotsCapacity := growth.capacity,
                     availableCapacity := growth.capacity }
            rfl rfl rfl (le_of_lt hlarge) (fun _ => by simp [hasInsertionCapacity, hlarge])
          simp only [hpl]
          exact ⟨_, _, _, rfl, hsd, nofun, fun id h => by cases h; exact hav ▸ hfr⟩

/-- Storage that was reserved stays, whatever comes after it. -/
theorem Sound.reserved (element : T) (t₁ : IdTable T) (hid : t₁.identity = t.identity)
    (hsls : t₁.slots = t.slots) (hav : t₁.availableIds = t.availableIds)
    (hroom : t₁.slots.length ≤ t₁.availableCapacity) (error : IdTableError) :
    ((w.setTable t₁).logName t₁ element (.error error)).Sound :=
  hs.resize ht hid hsls ((hs.table _ t ht).resize hsls hav hroom)

theorem Sound.tryAddElement (element : T) (list slots available : Option ℕ) :
    ∃ answer t', t.tryAddElement element list slots available = some (answer, t') ∧
      ((w.setTable t').logName t' element answer).Sound ∧
      ∀ id, answer = .ok id → id ∈ t.availableIds ∨ t.slots[id]? = none := by
  have hsd := hs.table _ t ht
  unfold IdTable.tryAddElement
  cases hav : t.availableIds with
  | cons id =>
    obtain ⟨_, _, _, h, hlgd, _, hfr⟩ := hs.tryInsertFrom ht element none
    simp only [h, map_some]
    exact ⟨_, _, rfl, hlgd, fun id h => hav ▸ hfr id h⟩
  | nil =>
    simp only
    split
    · exact ⟨_, _, rfl, hs.reserved ht element t rfl rfl rfl hsd.room _, nofun⟩
    cases hlist : tryReserve t.listCapacity t.slots.length 1 list with
    | none => exact ⟨_, _, rfl, hs.reserved ht element t rfl rfl rfl hsd.room _, nofun⟩
    | some listCapacity =>
      cases hsls : tryReserve t.slotsCapacity t.slots.length 1 slots with
      | none =>
        refine ⟨_, _, rfl, ?_, nofun⟩
        exact hs.reserved ht element
          ⟨t.slots, [], listCapacity, t.slotsCapacity, t.availableCapacity, t.identity⟩
          rfl rfl hav.symm hsd.room _
      | some slotsCapacity =>
        cases havail : tryReserve t.availableCapacity 0 (t.slots.length + 1) available with
        | none =>
          refine ⟨_, _, rfl, ?_, nofun⟩
          exact hs.reserved ht element
            ⟨t.slots, [], listCapacity, slotsCapacity, t.availableCapacity, t.identity⟩
            rfl rfl hav.symm hsd.room _
        | some availableCapacity =>
          -- All three buffers have room for one more, so the placement cannot fail.
          have hcap : (⟨t.slots, [], listCapacity, slotsCapacity, availableCapacity, t.identity⟩ :
              IdTable T).hasInsertionCapacity = true := by
            have h₁ := le_tryReserve hlist
            have h₂ := le_tryReserve hsls
            have h₃ := le_tryReserve havail
            simp only [hasInsertionCapacity, Bool.and_eq_true, decide_eq_true_eq]
            omega
          have hroom := le_tryReserve havail
          obtain ⟨id, _, hpl, hlgd, hfr⟩ := hs.place ht element
            ⟨t.slots, [], listCapacity, slotsCapacity, availableCapacity, t.identity⟩ rfl rfl hav.symm
            (show t.slots.length ≤ availableCapacity by omega) (fun _ => hcap)
          simp only [IdTable.tryInsertFrom, hcap, hpl, if_true, map_some]
          exact ⟨_, _, rfl, hlgd, fun id h => by cases h; exact hav ▸ hfr⟩

end Requests

theorem Sound.growths (hs : w.Sound) (growths : List PreparedGrowth) :
    Sound { w with growths } := { hs with }

theorem Sound.newTable (hs : w.Sound) :
    Sound { w with tables := update w.tables w.nextIdentity (some (.new w.nextIdentity))
                   nextIdentity := w.nextIdentity + 1 } := by
  have hkn : ∀ {k : ℕ} {P : IdTable T → Prop}, k < w.nextIdentity ∧ (∀ t, w.tables k = some t → P t) →
      k < w.nextIdentity + 1 ∧
        ∀ t, update w.tables w.nextIdentity (some (.new w.nextIdentity)) k = some t → P t := by
    rintro k P ⟨hlt, hP⟩
    refine ⟨Nat.lt_succ_of_lt hlt, fun t h => ?_⟩
    rcases update_eq_some h with ⟨he, _⟩ | ⟨-, h⟩
    · exact absurd he (ne_of_lt hlt)
    · exact hP t h
  exact { hs with
    identity := fun k t h => by
      rcases update_eq_some h with ⟨rfl, ⟨⟩⟩ | ⟨-, h⟩
      · exact ⟨rfl, Nat.lt_succ_self _⟩
      · exact ⟨(hs.identity k t h).1, Nat.lt_succ_of_lt (hs.identity k t h).2⟩
    table := fun k t h => by
      rcases update_eq_some h with ⟨_, ⟨⟩⟩ | ⟨-, h⟩
      · exact sound_new _
      · exact hs.table k t h
    slot := fun k t id slot h hslot => by
      rcases update_eq_some h with ⟨_, ⟨⟩⟩ | ⟨-, h⟩
      · simp [new] at hslot
      · exact hs.slot k t id slot h hslot
    heldKnown := fun token hm => hkn (hs.heldKnown token hm)
    namesKnown := fun name hm => hkn (hs.namesKnown name hm) }

/-- What is held of a dropped table stays valid nowhere. -/
theorem Sound.dropTable (hs : w.Sound) (table : ℕ) :
    Sound { w with tables := update w.tables table none } := by
  have hat : ∀ k t, update w.tables table none k = some t → w.tables k = some t := by
    intro k t h
    rcases update_eq_some h with ⟨-, ⟨⟩⟩ | ⟨-, h⟩
    exact h
  exact { hs with
    identity := fun k t h => hs.identity k t (hat k t h)
    table := fun k t h => hs.table k t (hat k t h)
    slot := fun k t id slot h => hs.slot k t id slot (hat k t h)
    heldKnown := fun token hm => ⟨(hs.heldKnown token hm).1, fun t h => (hs.heldKnown token hm).2 t (hat _ t h)⟩
    namesKnown := fun name hm => ⟨(hs.namesKnown name hm).1, fun t h => (hs.namesKnown name hm).2 t (hat _ t h)⟩ }

/-- What one request to a table gives: a sound state, an identifier that was not in use, or a
refusal that leaves the tables and the names. -/
structure Served (w : IdTables T) (request : IdRequest T) (t : IdTable T) (answer : IdAnswer T)
    (w' : IdTables T) : Prop where
  sound : w'.Sound
  fresh : ∀ id, answer = .inserted id → id ∈ t.availableIds ∨ t.slots[id]? = none
  refused : ∀ error, answer = .refused error →
    (∀ k element list slots available, request ≠ .tryAddElement k element list slots available) →
    w'.tables = w.tables ∧ w'.names = w.names

variable {request : IdRequest T} {w w' : IdTables T} {answer : IdAnswer T}

/-- An answer that is no identifier, with the tables and names as they were. -/
theorem Sound.quiet (hs : w'.Sound) (t : IdTable T)
    (hans : ∀ id, answer ≠ .inserted id)
    (hsame : ∀ error, answer = .refused error → w'.tables = w.tables ∧ w'.names = w.names) :
    Served w request t answer w' := ⟨hs, fun id h => absurd h (hans id), fun error h _ => hsame error h⟩

variable {t : IdTable T} {w₀ : IdTables T}

theorem served_handOut (hs : w₀.Sound) (hsame : w₀.tables = w.tables ∧ w₀.names = w.names)
    {result : Except IdTableError (SlotToken × IdTable T)}
    (h : ∀ token t', result = .ok (token, t') → ((w₀.setTable t').hold token).Sound) :
    Served w request t (w₀.handOut result).1 (w₀.handOut result).2 := by
  cases result with
  | error => exact hs.quiet t nofun fun _ _ => hsame
  | ok value => exact (h value.1 value.2 rfl).quiet t nofun nofun

theorem served_change (hs : w₀.Sound)
    (hsame : w₀.tables = w.tables ∧ w₀.names = w.names) {result : Except IdTableError (IdTable T)}
    (h : ∀ t', result = .ok t' → (w₀.setTable t').Sound) :
    Served w request t (w₀.change result).1 (w₀.change result).2 := by
  cases result with
  | error => exact hs.quiet t nofun fun _ _ => hsame
  | ok t' => exact (h t' rfl).quiet t nofun nofun

theorem Sound.serve (hs : w.Sound) (ht : w.tables t.identity = some t) (request : IdRequest T) :
    ∃ answer w', w.serve t request = some (answer, w') ∧ Served w request t answer w' := by
  have hdone : Served w request t .done w := hs.quiet t nofun fun _ _ => ⟨rfl, rfl⟩
  cases request with
  | newTable | dropTable | abandon => exact ⟨_, _, rfl, hdone⟩
  | tryAddElement table element list slots available =>
    obtain ⟨answer, _, h, hsd, hfr⟩ := hs.tryAddElement ht element list slots available
    simp only [IdTables.serve, h, map_some]
    refine ⟨_, _, rfl, hsd, fun id hid => hfr id ?_, fun _ _ h => absurd rfl (h _ _ _ _ _)⟩
    cases answer <;> cases hid
    rfl
  | prepareGrowth =>
    simp only [IdTables.serve]
    split
    · exact ⟨_, _, rfl, hs.quiet t nofun fun _ _ => ⟨rfl, rfl⟩⟩
    · exact ⟨_, _, rfl, hdone⟩
    · exact ⟨_, _, rfl, (hs.growths _).quiet t nofun fun _ _ => ⟨rfl, rfl⟩⟩
  | tryInsertPrepared table element growth =>
    obtain ⟨answer, _, _, h, hsd, hrfs, hfr⟩ :=
      hs.tryInsertFrom ht element (growth.bind (w.growths[·]?))
    simp only [IdTables.serve, h, bind_eq_bind, bind_some]
    refine ⟨_, _, rfl, hsd.growths _, fun id hid => hfr id ?_, fun error he _ => ?_⟩
    · cases answer <;> cases hid
      rfl
    · cases answer <;> cases he
      obtain rfl := hrfs _ rfl
      exact ⟨congrArg (·.tables) (setTable_self ht), congrArg (·.names) (setTable_self ht)⟩
  | takeElement table id =>
    simp only [IdTables.serve]
    cases h : t.takeElement id with
    | error => exact ⟨_, _, rfl, hs.quiet t nofun fun _ _ => ⟨rfl, rfl⟩⟩
    | ok => exact ⟨_, _, rfl, (hs.takeElement ht h).quiet t nofun nofun⟩
  | lease =>
    exact ⟨_, _, rfl, served_handOut hs ⟨rfl, rfl⟩ fun _ _ h => hs.lease ht h⟩
  | leaseForClose =>
    simp only [IdTables.serve]
    split
    · exact ⟨_, _, rfl, served_handOut hs ⟨rfl, rfl⟩ fun _ _ h => hs.leaseForClose ht h⟩
    · exact ⟨_, _, rfl, hdone⟩
  | finishLease table token =>
    simp only [IdTables.serve]
    split
    · rename_i hp
      refine ⟨_, _, rfl, served_change (w := w) (hs.consume token) ⟨rfl, rfl⟩ fun _ h => ?_⟩
      exact hs.finishLease ht hp.1 hp.2 h
    · exact ⟨_, _, rfl, hdone⟩
  | sealClose =>
    simp only [IdTables.serve]
    split
    · exact ⟨_, _, rfl, served_change hs ⟨rfl, rfl⟩ fun _ h => hs.sealClose ht h⟩
    · exact ⟨_, _, rfl, hdone⟩
  | beginClose =>
    exact ⟨_, _, rfl, served_handOut hs ⟨rfl, rfl⟩ fun _ _ h => hs.beginClose ht h⟩
  | retireClosing table token =>
    simp only [IdTables.serve]
    split
    · rename_i hp
      refine ⟨_, _, rfl, served_handOut (w := w) (hs.consume token) ⟨rfl, rfl⟩ fun retired t' h => ?_⟩
      cases hr : t.retireClosing token with
      | error =>
        rw [hr] at h
        cases h
      | ok value =>
        obtain ⟨_, _, _⟩ := value
        rw [hr] at h
        cases h
        exact hs.retireClosing ht hp.1 hp.2 hr
    · exact ⟨_, _, rfl, hdone⟩
  | finishRetirement table token =>
    simp only [IdTables.serve]
    split
    · rename_i hp
      refine ⟨_, _, rfl, served_change (w := w) (hs.consume token) ⟨rfl, rfl⟩ fun _ h => ?_⟩
      exact hs.finishRetirement ht hp.1 hp.2 h
    · exact ⟨_, _, rfl, hdone⟩

theorem Sound.step (hs : w.Sound) (request : IdRequest T) :
    ∃ answer w', w.step request = some (answer, w') ∧ w'.Sound := by
  have hserve : ∀ {t}, request.table.bind w.tables = some t →
      ∃ answer w', w.serve t request = some (answer, w') ∧ w'.Sound := by
    intro t ht
    obtain ⟨k, _, hk⟩ := bind_eq_some_iff.mp ht
    obtain ⟨rfl, _⟩ := hs.identity k t hk
    obtain ⟨answer, w', h, hserved⟩ := hs.serve hk request
    exact ⟨answer, w', h, hserved.sound⟩
  cases request with
  | newTable => exact ⟨_, _, rfl, hs.newTable⟩
  | dropTable table => exact ⟨_, _, rfl, hs.dropTable table⟩
  | abandon token => exact ⟨_, _, rfl, hs.consume token⟩
  | _ =>
    simp only [IdTables.step]
    split
    · exact ⟨_, _, rfl, hs⟩
    · exact hserve ‹_›

theorem Sound.run (hs : w.Sound) (requests : List (IdRequest T)) :
    ∃ w', w.run requests = some w' ∧ w'.Sound := by
  induction requests generalizing w with
  | nil => exact ⟨w, rfl, hs⟩
  | cons request rest ih =>
    obtain ⟨_, _, h, hs₁⟩ := hs.step request
    obtain ⟨w', h', hs'⟩ := ih hs₁
    refine ⟨w', ?_, hs'⟩
    simp only [run, h, bind_eq_bind, bind_some]
    exact h'

/-! ### What the callers can rely on -/

/-- The safety of the handles in one state. -/
structure HandleSafety (w : IdTables T) : Prop where
  /-- An identifier is occupied, listed once as free, or retained. -/
  partition : ∀ k t id slot, w.tables k = some t → t.slots[id]? = some slot →
    slot.element.isSome = true ∧ slot.retiring = false ∧ t.availableIds.count id = 0 ∨
    slot.element = none ∧ slot.retiring = false ∧ t.availableIds.count id = 1 ∨
    slot.element = none ∧ slot.retiring = true ∧ t.availableIds.count id = 0
  listed : ∀ k t, w.tables k = some t → ∀ id ∈ t.availableIds, id < t.slots.length
  /-- Every occupant has its name, and no two names agree. -/
  named : ∀ k t id slot element, w.tables k = some t → t.slots[id]? = some slot →
    slot.element = some element → ⟨k, id, slot.generation, element⟩ ∈ w.names
  unique : (w.names.map Name.key).Nodup
  /-- A token is honoured by its own table as long as it is held. -/
  honoured : ∀ token ∈ w.held, ∀ t, w.tables token.table = some t →
    t.Current token ∧ token.id ∉ t.availableIds
  /-- An insertion gives out an identifier without leases, close or retirement, held or not. -/
  handedOut : ∀ request k t id w', request.table = some k → w.tables k = some t →
    w.step request = some (.inserted id, w') →
    (∀ token ∈ w.held, token.table = k → token.id ≠ id) ∧
    ∀ slot, t.slots[id]? = some slot → slot.leases = 0 ∧ slot.closing = false ∧ slot.retiring = false
  /-- What a table does not owe is refused, and no table changes. -/
  rejected : ∀ k t token, w.tables k = some t → ¬ t.Current token →
    (token.kind = .lease → t.finishLease token = .error .wrongLease) ∧
    (token.kind = .closing → t.sealClose token = .error .wrongRetirement ∧
      t.retireClosing token = .error .wrongRetirement ∧
      ∀ peer generation, t.leaseForClose token peer generation = .error .wrongRetirement) ∧
    (token.kind = .retirement → t.finishRetirement token = .error .wrongRetirement)
  unchanged : ∀ request error w', w.step request = some (.refused error, w') →
    (∀ k element list slots available, request ≠ .tryAddElement k element list slots available) →
    w'.tables = w.tables ∧ w'.names = w.names
  /-- An identifier that is not free can be pushed without an allocation. -/
  room : ∀ k t, w.tables k = some t → t.slots.length ≤ t.availableCapacity ∧
    ∀ id < t.slots.length, id ∉ t.availableIds → t.availableIds.length < t.availableCapacity

/-- A request that is answered with more than `done` was served by a table. -/
theorem Sound.served (hs : w.Sound)
    (h : w.step request = some (answer, w')) (hans : answer ≠ .done) :
    ∃ t, request.table.bind w.tables = some t ∧ w.tables t.identity = some t ∧ Served w request t answer w' := by
  cases ht : request.table.bind w.tables with
  | none => cases request <;> simp_all [IdTables.step]
  | some t =>
    obtain ⟨k, hk, ht'⟩ := bind_eq_some_iff.mp ht
    obtain ⟨rfl, _⟩ := hs.identity k t ht'
    obtain ⟨_, _, hserve, hserved⟩ := hs.serve ht' request
    cases request with
    | newTable | abandon => cases hk
    | dropTable =>
      cases h
      exact absurd rfl hans
    | _ =>
      simp only [IdTables.step, ht] at h
      cases hserve.symm.trans h
      exact ⟨t, rfl, ht', hserved⟩

theorem Sound.handleSafety (hs : w.Sound) : w.HandleSafety where
  partition := fun k t id slot ht hslot => by
    have hsd := hs.table k t ht
    by_cases hid : id ∈ t.availableIds
    · have hi := hsd.idle_of_mem hslot hid
      exact .inr (.inl ⟨hi.element, hi.retiring, count_eq_one_of_mem hsd.nodup hid⟩)
    · have hcnt := count_eq_zero.mpr hid
      rcases hsd.kept id slot hslot hid with ⟨he, hr⟩ | ⟨he, hr, _⟩
      · exact .inl ⟨he, hr, hcnt⟩
      · exact .inr (.inr ⟨he, hr, hcnt⟩)
  listed := fun k t ht id hid => by
    obtain ⟨_, hslot, _⟩ := (hs.table k t ht).idle id hid
    exact (List.getElem?_eq_some_iff.mp hslot).1
  named := fun k t id slot element ht hslot he => (hs.slot k t id slot ht hslot).own element he
  unique := hs.unique
  honoured := fun token hm t ht => by
    have hid := (hs.identity _ t ht).1
    obtain ⟨slot, hslot⟩ := isSome_iff_exists.mp ((hs.heldKnown token hm).2 t ht)
    have hagree := hs.slot _ t _ slot ht hslot
    constructor
    · refine ⟨hid.symm, slot, hslot, (hagree.current token hm rfl rfl).symm, ?_⟩
      exact lt_of_lt_of_le (outstanding_pos hm) (hagree.admitted token.kind)
    · exact fun hfree => hs.unheld (hid.symm ▸ ht) (.inl hfree) token hm hid.symm rfl
  handedOut := fun request k t id w' hk ht h => by
    obtain ⟨_, ht₁, _, hserved⟩ := hs.served h nofun
    rw [hk, bind_some, ht] at ht₁
    cases ht₁
    obtain ⟨rfl, _⟩ := hs.identity k t ht
    have hfr := hserved.fresh id rfl
    refine ⟨hs.unheld ht hfr, fun slot hslot => ?_⟩
    rcases hfr with hfree | hnone
    · have hi := (hs.table _ t ht).idle_of_mem hslot hfree
      exact ⟨hi.leases, hi.closing, hi.retiring⟩
    · cases hnone.symm.trans hslot
  rejected := fun k t token _ hn => by
    refine ⟨fun hkind => finishLease_of_not_current hkind hn, fun hkind => ?_,
      fun hkind => finishRetirement_of_not_current hkind hn⟩
    have h := validateClosing_of_not_current hkind hn
    refine ⟨?_, ?_, fun peer generation => ?_⟩
    · simp only [IdTable.sealClose, h]
      rfl
    · simp only [IdTable.retireClosing, h]
      rfl
    · simp only [IdTable.leaseForClose, h]
      rfl
  unchanged := fun request error w' h hadd => by
    obtain ⟨t, _, _, hserved⟩ := hs.served h nofun
    exact hserved.refused error rfl hadd
  room := fun k t ht => ⟨(hs.table k t ht).room, fun id hlt hid => (hs.table k t ht).push_room hlt hid⟩

/-- Every sequence of requests to the tables is served without a failed assertion or an
unchecked push, and the handles are safe after it. -/
theorem run_handleSafety (requests : List (IdRequest T)) :
    ∃ w, (start : IdTables T).run requests = some w ∧ w.HandleSafety := by
  obtain ⟨w, h, hs⟩ := sound_start.run requests
  exact ⟨w, h, hs.handleSafety⟩

end IdTables

end Charlotte.Kernel
