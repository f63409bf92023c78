import Charlotte.Graft.SnapshotCodec

/-!
# What the envelope reader recovers

What the reader of the snapshot envelope makes of what the writer puts there.
It takes printable ASCII and the three control characters the writer escapes,
and no other byte of an id. It cuts a member's object at the first closing
brace, also one inside the id, and then misses the role and the host.
-/

namespace Charlotte.Graft.SnapshotCodec

open Lib.TextSearch List Option Absent Lib.Numeral Lib.Base64

variable (b : UInt8)

/-- A byte the JSON reader takes inside a string, possibly escaped. -/
def printableByte : Bool :=
  b == 9 || b == 10 || b == 13 || (decide (32 ≤ b) && decide (b < 127))

/-- Every byte of the id is printable, and none closes an object. -/
def readable (id : Text) : Bool := id.all fun b => printableByte b && b != 125

variable (peer : Peer)

/-- The member as it is read back. -/
def reread : Option Peer :=
  if peer.id.all printableByte then
    some (if 125 ∈ peer.id then ⟨peer.id, 0, .voter⟩ else peer)
  else none

theorem forall_byte {P : UInt8 → Prop} (h : ∀ n < 256, P (UInt8.ofNat n)) (b : UInt8) : P b := by
  have := h b.toNat b.toNat_lt
  rwa [UInt8.ofNat_toNat] at this

variable {text : Text}

theorem forall_mem_of_all {P : UInt8 → Prop} [DecidablePred P]
    (h : (text.all fun b => decide (P b)) = true) : ∀ b ∈ text, P b := by
  simpa only [List.all_eq_true, decide_eq_true_eq] using h

/-! ## Escaping -/

/-- What the writer puts for one byte. -/
def escapeByte : Text :=
  if b = 92 then [92, 92]
  else if b = 34 then [92, 34]
  else if b = 10 then [92, 110]
  else if b = 13 then [92, 114]
  else if b = 9 then [92, 116]
  else [b]

theorem replace_flatMap (byte : UInt8) (by_ text : Text) (f : UInt8 → Text) :
    replace byte by_ (text.flatMap f) = text.flatMap fun b => replace byte by_ (f b) := by
  rw [replace, flatMap_assoc]
  rfl

theorem escape_eq (text : Text) : escape text = text.flatMap escapeByte := by
  have hfst : replace 92 (ascii "\\\\") text =
      text.flatMap fun b => if b = 92 then ascii "\\\\" else [b] := rfl
  rw [escape, hfst, replace_flatMap, replace_flatMap, replace_flatMap, replace_flatMap]
  congr 1
  funext b
  revert b
  apply forall_byte
  decide +kernel

theorem escape_nil : escape [] = [] := rfl

theorem escape_cons (text : Text) : escape (b :: text) = escapeByte b ++ escape text := by
  rw [escape_eq, escape_eq, flatMap_cons]

/-- A byte is escaped to itself or to a backslash and a byte that stands for it. -/
theorem escapeByte_cases : (escapeByte b = [b] ∧ b ≠ 34 ∧ b ≠ 92 ∧ b ≠ 9 ∧ b ≠ 10 ∧ b ≠ 13) ∨
      ∃ c, escapeByte b = [92, c] ∧ unescape c = some b ∧ c ≠ 125 ∧ c < 128 ∧
        printableByte b = true := by
  by_cases h92 : b = 92
  · subst h92
    exact .inr ⟨92, by decide⟩
  by_cases h34 : b = 34
  · subst h34
    exact .inr ⟨34, by decide⟩
  by_cases h10 : b = 10
  · subst h10
    exact .inr ⟨110, by decide⟩
  by_cases h13 : b = 13
  · subst h13
    exact .inr ⟨114, by decide⟩
  by_cases h9 : b = 9
  · subst h9
    exact .inr ⟨116, by decide⟩
  · refine .inl ⟨?_, h34, h92, h9, h10, h13⟩
    simp only [escapeByte, if_neg h92, if_neg h34, if_neg h10, if_neg h13, if_neg h9]

variable {b}

theorem printableByte_plain (h : b ≠ 9 ∧ b ≠ 10 ∧ b ≠ 13) :
    printableByte b = (!isAsciiControl b && decide (b < 128)) := by
  revert b
  apply forall_byte
  decide +kernel

theorem parseJsonChars_escape (text tail : Text) :
    parseJsonChars false (escape text ++ 34 :: tail) =
      if text.all printableByte then some (text, (escape text).length + 1) else none := by
  induction text with
  | nil => rfl
  | cons b rest ih =>
    rw [escape_cons, all_cons]
    rcases escapeByte_cases b with ⟨he, h34, h92, h9, h10, h13⟩ | ⟨c, he, hc, -, -, hb⟩
    · rw [he, singleton_append, cons_append, parseJsonChars, ih, printableByte_plain ⟨h9, h10, h13⟩]
      cases isAsciiControl b <;> cases rest.all printableByte <;> by_cases hb : b < 128 <;>
        simp [h34, h92, hb]
    · rw [he, hb]
      simp only [cons_append, nil_append, parseJsonChars]
      cases hrest : rest.all printableByte <;> simp [hc, ih, hrest]

theorem parseJsonString_quoteJson (text tail : Text) : parseJsonString (quoteJson text ++ tail) =
    if text.all printableByte then some (text, (quoteJson text).length) else none := by
  have hq : quoteJson text ++ tail = 34 :: (escape text ++ 34 :: tail) := by
    simp [quoteJson, ascii]
  have hl : (quoteJson text).length = (escape text).length + 2 := by
    simp [quoteJson, ascii]
  rw [hq, parseJsonString, parseJsonChars_escape, hl]
  split <;> rfl

/-! ## Field names in the text -/

/-- A quoted field name and its colon, possibly with more after it. -/
structure Marker (m : Text) : Prop where
  shape : ∃ c name more, m = 34 :: c :: name ++ 34 :: 58 :: more ∧ c ≠ 44 ∧
    ∀ x ∈ c :: name, x ≠ 34 ∧ x ≠ 92

/-- The name of a field does not continue an escaped text up to its closing quote
unless a colon follows. -/
theorem not_prefix_escape {name more : Text} (hn : ∀ x ∈ name, x ≠ 34 ∧ x ≠ 92) (text tail : Text) :
    ¬ (name ++ 34 :: 58 :: more) <+: (escape text ++ 34 :: 44 :: tail) := by
  induction text generalizing name with
  | nil =>
    cases name with
    | nil => simp [escape_nil]
    | cons x =>
      rw [escape_nil, nil_append, cons_append, cons_prefix_cons]
      exact fun hp => (hn x mem_cons_self).1 hp.1
  | cons b rest ih =>
    rw [escape_cons]
    cases name with
    | nil =>
      rcases escapeByte_cases b with ⟨he, h34, -⟩ | ⟨c, he, -⟩
      · rw [he, singleton_append, cons_append, nil_append, cons_prefix_cons]
        exact fun hp => h34 hp.1.symm
      · rw [he]
        simp
    | cons =>
      rw [forall_mem_cons] at hn
      rcases escapeByte_cases b with ⟨he, -⟩ | ⟨c, he, -⟩
      · rw [he, singleton_append, cons_append, cons_append, cons_prefix_cons]
        exact fun hp => ih hn.2 hp.2
      · rw [he, cons_append, cons_append, cons_append, cons_prefix_cons]
        exact fun hp => hn.1.2 hp.1

variable {m : Text}

theorem Marker.absent_escape (hm : Marker m) (text tail : Text) :
    Absent m (escape text) (34 :: 44 :: tail) := by
  obtain ⟨_, _, _, rfl, _, hn⟩ := hm.shape
  induction text with
  | nil => exact absent_nil _ _
  | cons b rest ih =>
    rw [escape_cons]
    refine append ?_ ih
    rcases escapeByte_cases b with ⟨he, h34, -⟩ | ⟨x, he, -⟩
    · rw [he, cons_append]
      exact absent_of_head (by simpa using h34.symm) _
    · rw [he]
      refine absent_cons ?_ (absent_cons ?_ (absent_nil _ _))
      · simp
      · rw [singleton_append, cons_append, cons_append, cons_prefix_cons]
        exact fun hp => not_prefix_escape hn rest tail hp.2

theorem quoteJson_eq (text : Text) : quoteJson text = [34] ++ (escape text ++ [34]) := by
  simp [quoteJson, ascii]

theorem Marker.absent_quoteJson (hm : Marker m) (text tail : Text) :
    Absent m (quoteJson text) (44 :: tail) := by
  have hin := hm.absent_escape text tail
  obtain ⟨_, _, _, rfl, hc, hn⟩ := hm.shape
  rw [quoteJson_eq]
  refine append (absent_cons ?_ (absent_nil _ _))
    (append hin (absent_cons ?_ (absent_nil _ _)))
  · rw [singleton_append, cons_append, cons_append, cons_prefix_cons]
    rintro ⟨-, hp⟩
    exact not_prefix_escape hn text tail (by simpa using hp)
  · simp [hc]

/-! ## The pieces of a member -/

/-- The text between a member's id and its service name. -/
def rolePart : Role → Text
  | .voter => ascii ",\"role\":\"VOTER\",\"address\":\x7b\"host\":\"charlotte:"
  | .learner => ascii ",\"role\":\"LEARNER\",\"address\":\x7b\"host\":\"charlotte:"

def hexPart (serviceName : UInt64) : Text := renderPadded 16 16 serviceName.toNat

/-- The text after a member's service name, up to the brace that closes its
address. -/
def portPart : Text := ascii "\",\"port\":0"

/-- What follows a member's id. -/
def memberTail : Text :=
  rolePart peer.role ++ (hexPart peer.serviceName ++ (portPart ++ [125, 125]))

theorem memberJson_eq :
    memberJson peer = 123 :: (idMarker ++ (quoteJson peer.id ++ memberTail peer)) := by
  obtain ⟨_, _, role⟩ := peer
  cases role <;>
    simp [memberJson, memberTail, rolePart, hexPart, portPart, charlotteHost, roleText,
      Peer.isVoter, idMarker, ascii]

variable {c : UInt8} {serviceName : UInt64}

theorem mem_hexPart (h : c ∈ hexPart serviceName) : ∃ d < 16, c = digitChar d := by
  obtain ⟨d, hd, rfl⟩ := List.mem_map.mp h
  exact ⟨d, paddedDigits_lt (by decide) hd, rfl⟩

theorem hexPart_plain (h : c ∈ hexPart serviceName) :
    c ≠ 34 ∧ c ≠ 92 ∧ c ≠ 125 ∧ printableByte c = true ∧ escapeByte c = [c] ∧ c < 128 := by
  obtain ⟨d, _, rfl⟩ := mem_hexPart h
  clear h
  revert d
  decide

/-- A field name that does not occur in what the writer puts around ids. -/
structure FieldMarker (m : Text) : Prop extends Marker m where
  object : clear m (123 :: idMarker) = true
  role : ∀ r, clear m (rolePart r) = true
  port : clear m (portPart ++ [125, 125]) = true

theorem Marker.absent_of_not_mem (hm : Marker m) (h : 34 ∉ text)
    (tail : Text) : Absent m text tail := by
  obtain ⟨_, _, _, rfl, -⟩ := hm.shape
  exact absent_of_head h tail

theorem Marker.absent_memberTail (hm : Marker m)
    (hr : ∀ r, clear m (rolePart r) = true) (hp : clear m (portPart ++ [125, 125]) = true)
    (peer : Peer) (tail : Text) : Absent m (memberTail peer) tail := by
  have hhex : 34 ∉ hexPart peer.serviceName := fun h => (hexPart_plain h).1 rfl
  apply append
  · exact absent_of_clear (hr peer.role) _
  · apply append
    · exact hm.absent_of_not_mem hhex _
    · exact absent_of_clear hp tail

theorem memberTail_cons : ∃ rest, memberTail peer = 44 :: rest := by
  obtain ⟨_, _, role⟩ := peer
  cases role
  · exact ⟨_, rfl⟩
  · exact ⟨_, rfl⟩

theorem FieldMarker.absent_memberJson (hm : FieldMarker m) (peer : Peer)
    (tail : Text) : Absent m (memberJson peer) tail := by
  have hcons : memberJson peer = (123 :: idMarker) ++ (quoteJson peer.id ++ memberTail peer) :=
    memberJson_eq peer
  obtain ⟨_, hrest⟩ := memberTail_cons peer
  rw [hcons]
  refine append (absent_of_clear hm.object _) (append ?_ ?_)
  · rw [hrest]
    exact hm.absent_quoteJson _ _
  · exact hm.absent_memberTail hm.role hm.port _ _

/-- The members after the first, each with its comma. -/
def moreMembers (members : List Peer) : Text := members.flatMap fun peer => 44 :: memberJson peer

theorem membersJson_cons (rest : List Peer) :
    membersJson (peer :: rest) = memberJson peer ++ moreMembers rest := by
  induction rest generalizing peer with
  | nil => simp [membersJson, moreMembers, intercalate]
  | cons p rest ih =>
    have hstep : membersJson (peer :: p :: rest) =
        memberJson peer ++ 44 :: membersJson (p :: rest) := by
      simp [membersJson, intercalate]
    rw [hstep, ih]
    simp [moreMembers]

theorem moreMembers_cons (rest : List Peer) :
    moreMembers (peer :: rest) = [44] ++ (memberJson peer ++ moreMembers rest) := by
  simp [moreMembers]

theorem FieldMarker.absent_moreMembers (hm : FieldMarker m) (members : List Peer)
    (tail : Text) : Absent m (moreMembers members) tail := by
  induction members with
  | nil => exact absent_nil _ _
  | cons peer rest ih =>
    rw [moreMembers_cons]
    refine append (hm.absent_of_not_mem (by decide) _) (append ?_ ih)
    exact hm.absent_memberJson _ _

theorem FieldMarker.absent_membersJson (hm : FieldMarker m) (members : List Peer)
    (tail : Text) : Absent m (membersJson members) tail := by
  cases members with
  | nil => exact absent_nil _ _
  | cons =>
    rw [membersJson_cons]
    exact append (hm.absent_memberJson _ _) (hm.absent_moreMembers _ _)

/-! ## Reading a field -/

theorem escape_eq_self (h : ∀ b ∈ text, escapeByte b = [b]) : escape text = text := by
  induction text with
  | nil => rfl
  | cons b rest ih =>
    rw [forall_mem_cons] at h
    rw [escape_cons, h.1, ih h.2]
    rfl

/-- The quoted name of a field with its colon. -/
def fieldMarker (field : Text) : Text := ascii "\"" ++ field ++ ascii "\":"

variable {field a tail : Text}

theorem afterField_of_absent {b : Text} (h : Absent (fieldMarker field) a (fieldMarker field ++ b)) :
    afterField (a ++ (fieldMarker field ++ b)) field = some b := by
  have hne : fieldMarker field ≠ [] := cons_ne_nil _ _
  rw [afterField, ← fieldMarker, splitFirst_of_absent hne h]
  rfl

theorem stringField_of_absent (h : ∀ tail, Absent (fieldMarker field) a (fieldMarker field ++ tail))
    (hp : ∀ b ∈ text, printableByte b = true) (he : ∀ b ∈ text, escapeByte b = [b]) :
    stringField (a ++ (fieldMarker field ++ (quoteJson text ++ tail))) field = some text := by
  have hlen : (quoteJson text).length = text.length + 2 := by
    simp [quoteJson, ascii, escape_eq_self he]
  have hq : quoteJson text ++ tail = 34 :: (text ++ 34 :: tail) := by
    simp [quoteJson, ascii, escape_eq_self he]
  rw [stringField, afterField_of_absent (h _)]
  simp only [bind_eq_bind, bind_some, parseJsonString_quoteJson, all_eq_true.mpr hp, if_true, hlen]
  rw [hq]
  simp

/-! ## Reading the members -/

theorem idMarker_marker : Marker idMarker :=
  ⟨105, [100], [], rfl, by decide, forall_mem_of_all (by decide)⟩

theorem role_marker : Marker (fieldMarker (ascii "role")) :=
  ⟨114, ascii "ole", [], rfl, by decide, forall_mem_of_all (by decide)⟩

theorem host_marker : Marker (fieldMarker (ascii "host")) :=
  ⟨104, ascii "ost", [], rfl, by decide, forall_mem_of_all (by decide)⟩

def roleName : Role → Text
  | .voter => ascii "VOTER"
  | .learner => ascii "LEARNER"

variable (role : Role)

theorem roleOfText_roleName : roleOfText (roleName role) = role := by
  cases role <;> decide

theorem rolePart_role : rolePart role = [44] ++ (fieldMarker (ascii "role") ++
      (quoteJson (roleName role) ++ ascii ",\"address\":\x7b\"host\":\"charlotte:")) := by
  cases role <;> decide

/-- The role part up to the host's marker. -/
def addressPart : Text :=
  [44] ++ (fieldMarker (ascii "role") ++ (quoteJson (roleName role) ++ ascii ",\"address\":\x7b"))

theorem rolePart_host : rolePart role = addressPart role ++
      (fieldMarker (ascii "host") ++ ascii "\"charlotte:") := by
  cases role <;> decide

/-- The object the reader cuts out for a member. -/
def memberObject : Text :=
  (123 :: idMarker) ++ (quoteJson peer.id ++
    (rolePart peer.role ++ (hexPart peer.serviceName ++ (portPart ++ [125]))))

theorem Marker.absent_before (hm : Marker (fieldMarker field)) {part : Text}
    (hobj : clear (fieldMarker field) (123 :: idMarker) = true)
    (hpart : clear (fieldMarker field) (44 :: part) = true) (id tail : Text) :
    Absent (fieldMarker field) ((123 :: idMarker) ++ (quoteJson id ++ 44 :: part)) tail := by
  apply append
  · exact absent_of_clear hobj _
  · apply append
    · exact hm.absent_quoteJson id _
    · exact absent_of_clear hpart _

theorem stringField_role :
    stringField (memberObject peer) (ascii "role") = some (roleName peer.role) := by
  have hpln : ∀ b ∈ roleName peer.role, printableByte b = true ∧ escapeByte b = [b] := by
    cases peer.role <;> exact forall_mem_of_all (by decide)
  have hobj : memberObject peer = ((123 :: idMarker) ++ (quoteJson peer.id ++ [44])) ++
      (fieldMarker (ascii "role") ++ (quoteJson (roleName peer.role) ++
        (ascii ",\"address\":\x7b\"host\":\"charlotte:" ++
          (hexPart peer.serviceName ++ (portPart ++ [125]))))) := by
    rw [memberObject, rolePart_role]
    simp only [append_assoc]
  rw [hobj]
  exact stringField_of_absent (fun _ => role_marker.absent_before (by decide) (by decide) _ _)
    (fun b hb => (hpln b hb).1) (fun b hb => (hpln b hb).2)

theorem stringField_host : stringField (memberObject peer) (ascii "host") =
      some (charlotteHost peer.serviceName) := by
  have hpln : ∀ b ∈ charlotteHost peer.serviceName,
      printableByte b = true ∧ escapeByte b = [b] := by
    have hsta : ∀ b ∈ ascii "charlotte:", printableByte b = true ∧ escapeByte b = [b] := by
      exact forall_mem_of_all (by decide)
    intro b hb
    rcases mem_append.mp hb with hb | hb
    · exact hsta b hb
    · exact ⟨(hexPart_plain hb).2.2.2.1, (hexPart_plain hb).2.2.2.2.1⟩
  have hquote : quoteJson (charlotteHost peer.serviceName) =
      ascii "\"charlotte:" ++ (hexPart peer.serviceName ++ [34]) := by
    rw [quoteJson, escape_eq_self fun b hb => (hpln b hb).2, charlotteHost, hexPart]
    rw [append_assoc, append_assoc]
    rfl
  have hobj : memberObject peer =
      ((123 :: idMarker) ++ (quoteJson peer.id ++ addressPart peer.role)) ++
        (fieldMarker (ascii "host") ++ (quoteJson (charlotteHost peer.serviceName) ++
          (ascii ",\"port\":0" ++ [125]))) := by
    have hport : portPart = [34] ++ ascii ",\"port\":0" := rfl
    rw [memberObject, rolePart_host, hquote, hport]
    simp only [append_assoc]
  rw [hobj]
  exact stringField_of_absent
    (fun _ => host_marker.absent_before (by decide) (by cases peer.role <;> decide) _ _)
    (fun b hb => (hpln b hb).1) (fun b hb => (hpln b hb).2)

theorem withoutPlus_hexPart (serviceName : UInt64) :
    withoutPlus (hexPart serviceName) = hexPart serviceName := by
  rw [withoutPlus, if_neg]
  intro hhead
  obtain ⟨d, _, _⟩ := mem_hexPart (mem_of_mem_head? hhead)
  revert d
  decide

theorem serviceNameOfHost_charlotteHost (serviceName : UInt64) :
    serviceNameOfHost (charlotteHost serviceName) = serviceName := by
  have hsta : afterStart (ascii "charlotte:") (charlotteHost serviceName) =
      some (hexPart serviceName) := by
    rw [afterStart, charlotteHost,
      if_pos (List.isPrefixOf_iff_prefix.mpr (prefix_append _ _)), drop_left, hexPart]
  have hprs : parse 16 (hexPart serviceName) = some serviceName.toNat :=
    parse_renderPadded (by decide) (by decide) (by decide) serviceName.toNat_lt
  have hhex : parseHexU64 (hexPart serviceName) = some serviceName := by
    rw [parseHexU64, withoutPlus_hexPart, hprs]
    simp [serviceName.toNat_lt]
  rw [serviceNameOfHost, hsta, bind_some, hhex]
  rfl

theorem mem_escape (h : c ∈ escape text) : c ∈ text ∨ c ≠ 125 ∧ c < 128 := by
  rw [escape_eq, mem_flatMap] at h
  obtain ⟨b, hb, hc⟩ := h
  rcases escapeByte_cases b with ⟨he, -⟩ | ⟨x, he, -, hx, hlt, -⟩
  · rw [he, mem_singleton] at hc
    exact .inl (hc ▸ hb)
  · rw [he] at hc
    simp only [mem_cons, not_mem_nil, or_false] at hc
    rcases hc with rfl | rfl
    · exact .inr (by decide)
    · exact .inr ⟨hx, hlt⟩

theorem mem_quoteJson (h : c ∈ quoteJson text) : c ∈ text ∨ c ≠ 125 ∧ c < 128 := by
  rw [quoteJson_eq, mem_append, mem_append, mem_singleton] at h
  rcases h with rfl | h | rfl
  · exact .inr (by decide)
  · exact mem_escape h
  · exact .inr (by decide)

variable {peer} {lead : Text}

theorem memberAt_whole (h : peer.id.all printableByte = true) (hb : 125 ∉ peer.id)
    (before more : Text) :
    memberAt (before ++ (123 :: idMarker)) (quoteJson peer.id ++ (memberTail peer ++ more)) =
      some (peer, (quoteJson peer.id).length) := by
  have hbrace : 125 ∉ quoteJson peer.id ++
      (rolePart peer.role ++ (hexPart peer.serviceName ++ portPart)) := by
    have hrole : 125 ∉ rolePart peer.role := by cases peer.role <;> decide
    have hhex : 125 ∉ hexPart peer.serviceName := fun hm => (hexPart_plain hm).2.2.1 rfl
    have hport : 125 ∉ portPart := by decide
    have hid : 125 ∉ quoteJson peer.id := fun hm =>
      (mem_quoteJson hm).elim hb fun hm => hm.1 rfl
    simp only [mem_append, not_or]
    exact ⟨hid, hrole, hhex, hport⟩
  have htail : uptoFirst 125 (quoteJson peer.id ++ (memberTail peer ++ more)) =
      some (quoteJson peer.id ++ (rolePart peer.role ++ (hexPart peer.serviceName ++
        (portPart ++ [125])))) := by
    have := uptoFirst_append hbrace (125 :: more)
    simpa only [memberTail, append_assoc, cons_append, nil_append] using this
  rw [memberAt, fromLast_append (by decide), htail, parseJsonString_quoteJson, if_pos h]
  simp only [bind_eq_bind, bind_some]
  rw [← memberObject, stringField_role, stringField_host]
  simp only [getD_some, serviceNameOfHost_charlotteHost, roleOfText_roleName]

/-- A field's name is not found in an object that is cut within the id. -/
theorem Marker.stringField_cut (hm : Marker (fieldMarker field))
    (hobj : clear (fieldMarker field) (123 :: idMarker) = true) (start rest : Text) :
    stringField (123 :: idMarker ++ (34 :: escape start ++ [125])) field = none := by
  have hquote : quoteJson (start ++ 125 :: rest) =
      (34 :: escape start ++ [125]) ++ (escape rest ++ [34]) := by
    simp [quoteJson_eq, escape_eq, escapeByte]
  have habs := append (absent_of_clear hobj _) (hm.absent_quoteJson (start ++ 125 :: rest) [])
  rw [hquote, ← append_assoc] at habs
  have hne : fieldMarker field ≠ [] := cons_ne_nil _ _
  rw [stringField, afterField, ← fieldMarker, splitFirst_eq_none hne habs.of_append]
  rfl

theorem memberAt_cut (h : peer.id.all printableByte = true) (hb : 125 ∈ peer.id)
    (before more : Text) : memberAt (before ++ (123 :: idMarker)) (quoteJson peer.id ++ more) =
      some (⟨peer.id, 0, .voter⟩, (quoteJson peer.id).length) := by
  obtain ⟨start, rest, hid, hstart⟩ := eq_append_cons_of_mem hb
  have hbrace : 125 ∉ 34 :: escape start := by
    rw [mem_cons, not_or]
    exact ⟨by decide, fun hm => (mem_escape hm).elim hstart fun hm => hm.1 rfl⟩
  have htail : uptoFirst 125 (quoteJson peer.id ++ more) = some (34 :: escape start ++ [125]) := by
    have := uptoFirst_append hbrace (escape rest ++ 34 :: more)
    rw [← this, hid]
    simp [quoteJson_eq, escape_eq, escapeByte]
  rw [memberAt, fromLast_append (by decide), htail, parseJsonString_quoteJson, if_pos h]
  simp only [bind_eq_bind, bind_some, role_marker.stringField_cut (by decide) start rest,
    host_marker.stringField_cut (by decide) start rest]
  rfl

theorem memberAt_member (peer : Peer) (before more : Text) :
    memberAt (before ++ (123 :: idMarker)) (quoteJson peer.id ++ (memberTail peer ++ more)) =
      (reread peer).map (·, (quoteJson peer.id).length) := by
  unfold reread
  split_ifs with h hb
  · exact memberAt_cut h hb before _
  · exact memberAt_whole h hb before more
  · rw [memberAt, parseJsonString_quoteJson, if_neg h]
    simp

theorem membersFrom_step (peer : Peer)
    (hlead : ∀ tail, Absent idMarker lead tail) (fuel : ℕ) (before more : Text) :
    membersFrom (fuel + 1) before
        (lead ++ (123 :: (idMarker ++ (quoteJson peer.id ++ (memberTail peer ++ more))))) =
      (reread peer).bind fun read =>
        (membersFrom fuel (before ++ (lead ++ [123]) ++ idMarker ++ quoteJson peer.id)
          (memberTail peer ++ more)).map (read :: ·) := by
  have habs : Absent idMarker (lead ++ [123])
      (idMarker ++ (quoteJson peer.id ++ (memberTail peer ++ more))) :=
    append (hlead _) (absent_of_clear (by decide) _)
  have hsplit := splitFirst_of_absent (by decide) habs
  rw [append_assoc, singleton_append] at hsplit
  have hmb := memberAt_member peer (before ++ lead) more
  have hbef : before ++ lead ++ (123 :: idMarker) = before ++ (lead ++ [123]) ++ idMarker := by
    simp
  rw [hbef] at hmb
  rw [membersFrom, hsplit]
  simp only [hmb, bind_eq_bind]
  cases reread peer with
  | none => rfl
  | some =>
    simp only [map_some, bind_some, take_left, drop_left]
    cases membersFrom fuel _ (memberTail peer ++ more) <;> rfl

theorem absent_idMarker_memberTail (peer : Peer) (tail : Text) :
    Absent idMarker (memberTail peer) tail := by
  apply idMarker_marker.absent_memberTail
  · intro r
    cases r <;> decide
  · decide

variable {members : List Peer}

theorem mapM_reread_cons (peer : Peer) (rest : List Peer) : (peer :: rest).mapM reread =
    (reread peer).bind fun read => (rest.mapM reread).map (read :: ·) := by
  rw [mapM_cons]
  cases reread peer <;> cases rest.mapM reread <;> rfl

theorem mapM_reread_iff : members.mapM reread = some members ↔ ∀ p ∈ members, reread p = some p := by
  induction members with
  | nil => simp
  | cons peer rest ih =>
    rw [mapM_reread_cons, forall_mem_cons, ← ih]
    cases reread peer <;> cases rest.mapM reread <;> simp

theorem membersFrom_more (hlead : ∀ tail, Absent idMarker lead tail) {fuel : ℕ}
    (hf : members.length < fuel) (before : Text) :
    membersFrom fuel before (lead ++ moreMembers members) = members.mapM reread := by
  induction members generalizing lead fuel before with
  | nil =>
    obtain ⟨k, rfl⟩ := Nat.exists_eq_succ_of_ne_zero (by omega : fuel ≠ 0)
    have hnone := splitFirst_eq_none (by decide : idMarker ≠ []) (hlead [])
    rw [membersFrom, show lead ++ moreMembers [] = lead from append_nil lead, hnone]
    rfl
  | cons peer rest ih =>
    obtain ⟨k, rfl⟩ := Nat.exists_eq_succ_of_ne_zero (by omega : fuel ≠ 0)
    have hlead' : ∀ tail, Absent idMarker (lead ++ [44]) tail := fun tail =>
      append (hlead _) (absent_of_clear (by decide) _)
    have htext : lead ++ moreMembers (peer :: rest) = (lead ++ [44]) ++
        (123 :: (idMarker ++ (quoteJson peer.id ++ (memberTail peer ++ moreMembers rest)))) := by
      simp [moreMembers, memberJson_eq]
    rw [htext, Nat.succ_eq_add_one, membersFrom_step peer hlead']
    rw [ih (absent_idMarker_memberTail peer) (by simpa using hf), mapM_reread_cons]

theorem membersFrom_membersJson {fuel : ℕ} (hf : members.length < fuel) :
    membersFrom fuel [] (membersJson members) = members.mapM reread := by
  obtain ⟨k, rfl⟩ := Nat.exists_eq_succ_of_ne_zero (by omega : fuel ≠ 0)
  cases members with
  | nil => rfl
  | cons peer rest =>
    have htext : membersJson (peer :: rest) = [] ++
        (123 :: (idMarker ++ (quoteJson peer.id ++ (memberTail peer ++ moreMembers rest)))) := by
      simp [membersJson_cons, memberJson_eq]
    rw [htext, Nat.succ_eq_add_one, membersFrom_step peer (fun tail => absent_nil _ tail)]
    rw [membersFrom_more (absent_idMarker_memberTail peer) (by simpa using hf), mapM_reread_cons]

/-! ## The end of an array -/

/-- The scanner's state after a text in which no array ends. -/
def scan (state : ScanState) (text : Text) : Option ScanState := text.foldlM scanByte state

/-- Outside any string. -/
def outside : ScanState := ⟨false, false⟩

/-- Inside a string, not after a backslash. -/
def inside : ScanState := ⟨true, false⟩

theorem scan_append {s s' s'' : ScanState} {b : Text} (ha : scan s a = some s')
    (hb : scan s' b = some s'') : scan s (a ++ b) = some s'' := by
  rw [scan, foldlM_append, ← scan, ha]
  exact hb

theorem arrayBody_of_scan {s s' : ScanState} (h : scan s a = some s') (b : Text) :
    arrayBody s (a ++ b) = (arrayBody s' b).map (a ++ ·) := by
  induction a generalizing s with
  | nil =>
    cases h
    simp
  | cons byte rest ih =>
    obtain ⟨t, ht, hrest⟩ := bind_eq_some_iff.mp h
    rw [cons_append, arrayBody, ht]
    change (arrayBody t (rest ++ b)).map _ = _
    rw [ih hrest, Option.map_map]
    rfl

theorem scan_inside (h : ∀ b ∈ text, b ≠ 34 ∧ b ≠ 92) : scan inside text = some inside := by
  induction text with
  | nil => rfl
  | cons b rest ih =>
    rw [forall_mem_cons] at h
    have hstep : scanByte inside b = some inside := by
      simp [scanByte, inside, h.1.1, h.1.2]
    rw [scan, foldlM_cons, hstep]
    exact ih h.2

theorem scan_escape (text : Text) : scan inside (escape text) = some inside := by
  induction text with
  | nil => rfl
  | cons b rest ih =>
    rw [escape_cons]
    refine scan_append ?_ ih
    rcases escapeByte_cases b with ⟨he, h34, h92, -⟩ | ⟨c, he, -⟩
    · rw [he]
      apply scan_inside
      intro x hx
      rw [mem_singleton.mp hx]
      exact ⟨h34, h92⟩
    · rw [he]
      rfl

theorem scan_quoteJson (text : Text) : scan outside (quoteJson text) = some outside := by
  rw [quoteJson_eq]
  exact scan_append rfl (scan_append (scan_escape text) rfl)

theorem scan_memberTail (peer : Peer) : scan outside (memberTail peer) = some outside := by
  have hrole : scan outside (rolePart peer.role) = some inside := by
    cases peer.role <;> decide
  have hhex : scan inside (hexPart peer.serviceName) = some inside :=
    scan_inside fun b hb => ⟨(hexPart_plain hb).1, (hexPart_plain hb).2.1⟩
  have hport : scan inside (portPart ++ [125, 125]) = some outside := by decide
  exact scan_append hrole (scan_append hhex hport)

theorem scan_memberJson (peer : Peer) : scan outside (memberJson peer) = some outside := by
  have hopen : scan outside (123 :: idMarker) = some outside := by decide
  rw [memberJson_eq]
  exact scan_append hopen (scan_append (scan_quoteJson _) (scan_memberTail peer))

theorem scan_moreMembers (members : List Peer) : scan outside (moreMembers members) = some outside := by
  induction members with
  | nil => rfl
  | cons peer rest ih =>
    rw [moreMembers_cons]
    exact scan_append rfl (scan_append (scan_memberJson peer) ih)

theorem arrayBody_membersJson (members : List Peer) (tail : Text) :
    arrayBody outside (membersJson members ++ 93 :: tail) = some (membersJson members) := by
  have hscan : scan outside (membersJson members) = some outside := by
    cases members with
    | nil => rfl
    | cons peer rest =>
      rw [membersJson_cons]
      exact scan_append (scan_memberJson peer) (scan_moreMembers rest)
  rw [arrayBody_of_scan hscan]
  simp [arrayBody, scanByte, outside]

theorem length_le_membersJson (members : List Peer) :
    members.length ≤ (membersJson members).length := by
  have hmore : ∀ ms : List Peer, ms.length ≤ (moreMembers ms).length := by
    intro ms
    induction ms with
    | nil => exact le_rfl
    | cons peer rest ih =>
      simp only [moreMembers, flatMap_cons, length_append, length_cons] at ih ⊢
      omega
  cases members with
  | nil => exact Nat.zero_le _
  | cons peer rest =>
    have := hmore rest
    rw [membersJson_cons, memberJson_eq]
    simp only [length_append, length_cons]
    omega

theorem memberIds_of_absent (ha : ∀ tail, Absent (ascii "\"" ++ field ++ ascii "\":[") a tail) :
    memberIds (a ++ ((ascii "\"" ++ field ++ ascii "\":[") ++
      (membersJson members ++ 93 :: tail))) field = members.mapM reread := by
  have hne : ascii "\"" ++ field ++ ascii "\":[" ≠ [] := cons_ne_nil _ _
  have hlen := length_le_membersJson members
  rw [memberIds, splitFirst_of_absent hne (ha _)]
  simp only [bind_eq_bind, bind_some]
  rw [← outside, arrayBody_membersJson, bind_some]
  exact membersFrom_membersJson (by omega)

/-! ## The whole envelope -/

theorem mem_render {n : ℕ} (h : c ∈ render 10 n) : c ≠ 34 ∧ isAsciiDigit c = true ∧ c < 128 := by
  obtain ⟨d, hd, rfl⟩ := mem_map.mp h
  have hlt : d < 10 := digits_lt (by decide) hd
  clear h hd
  revert d
  decide

theorem mem_base64 {data : Bytes} (h : c ∈ encode data) :
    printableByte c = true ∧ escapeByte c = [c] ∧ c < 128 := by
  obtain ⟨d, _, rfl⟩ := mem_encode h
  clear h
  revert d
  decide

theorem reread_eq_self_iff : reread peer = some peer ↔ peer.id.all printableByte = true ∧
    (125 ∈ peer.id → peer.serviceName = 0 ∧ peer.role = .voter) := by
  obtain ⟨_, serviceName, role⟩ := peer
  unfold reread
  split_ifs with h hb
  · simp [h, hb, eq_comm (b := serviceName), eq_comm (b := role)]
  · simp [h, hb]
  · simp [h]

theorem reread_of_readable (h : readable peer.id = true) : reread peer = some peer := by
  have hall : ∀ b ∈ peer.id, printableByte b = true ∧ b ≠ 125 := by
    simpa [readable] using h
  rw [reread_eq_self_iff, List.all_eq_true]
  exact ⟨fun b hb => (hall b hb).1, fun hb => absurd rfl (hall 125 hb).2⟩

theorem printableByte_ascii (h : printableByte b = true) : b < 128 := by
  revert b
  apply forall_byte
  decide +kernel

theorem mem_memberJson_ascii (h : reread peer = some peer) (hc : c ∈ memberJson peer) : c < 128 := by
  have hopen : ∀ x ∈ (123 :: idMarker : Text), x < 128 := forall_mem_of_all (by decide)
  have hrole : ∀ x ∈ rolePart peer.role, x < 128 := by
    cases peer.role <;> exact forall_mem_of_all (by decide)
  have hport : ∀ x ∈ portPart ++ [125, 125], x < 128 := forall_mem_of_all (by decide)
  rw [memberJson_eq, ← cons_append, memberTail] at hc
  rcases mem_append.mp hc with hc | hc
  · exact hopen c hc
  rcases mem_append.mp hc with hc | hc
  · rcases mem_quoteJson hc with hc | hc
    · exact printableByte_ascii (all_eq_true.mp (reread_eq_self_iff.mp h).1 c hc)
    · exact hc.2
  rcases mem_append.mp hc with hc | hc
  · exact hrole c hc
  rcases mem_append.mp hc with hc | hc
  · exact (hexPart_plain hc).2.2.2.2.2
  · exact hport c hc

theorem mem_membersJson_ascii (h : ∀ p ∈ members, reread p = some p)
    (hc : c ∈ membersJson members) : c < 128 := by
  cases members with
  | nil => cases hc
  | cons =>
    rw [forall_mem_cons] at h
    rw [membersJson_cons] at hc
    rcases mem_append.mp hc with hc | hc
    · exact mem_memberJson_ascii h.1 hc
    · rw [moreMembers, mem_flatMap] at hc
      obtain ⟨p, hp, hc⟩ := hc
      rcases mem_cons.mp hc with rfl | hc
      · decide
      · exact mem_memberJson_ascii (h.2 p hp) hc

section Envelope

variable {current next : List Peer} (epoch : ℕ) (data : Bytes)

theorem wrap_valid (hc : ∀ p ∈ current, reread p = some p) (hn : ∀ p ∈ next, reread p = some p) :
    Lib.Utf8.valid (wrapSnapshotPayloadWithMembershipEpoch current next epoch data) = true := by
  apply Lib.Utf8.valid_of_ascii
  intro b hb
  simp only [wrapSnapshotPayloadWithMembershipEpoch, mem_append] at hb
  have hl : ∀ x ∈ ascii "\x7b\"version\":1,\"membershipEpoch\":" ++
      ascii ",\"currentMembers\":[" ++ ascii "],\"nextMembers\":[" ++
      ascii "],\"stateMachineSnapshot\":" ++ ascii "\x7d", x < 128 := forall_mem_of_all (by decide)
  rcases hb with (((((((hb | hb) | hb) | hb) | hb) | hb) | hb) | hb) | hb
  · exact hl b (by simp [hb])
  · exact (mem_render hb).2.2
  · exact hl b (by simp [hb])
  · exact mem_membersJson_ascii hc hb
  · exact hl b (by simp [hb])
  · exact mem_membersJson_ascii hn hb
  · exact hl b (by simp [hb])
  · rcases mem_quoteJson hb with hb | hb
    · exact (mem_base64 hb).2.2
    · exact hb.2
  · exact hl b (by simp [hb])

/-- The text before the list of current members. -/
def epochPart (epoch : ℕ) : Text :=
  ascii "\x7b\"version\":1,\"membershipEpoch\":" ++ (render 10 epoch ++ [44])

/-- The text before the list of next members. -/
def currentPart (epoch : ℕ) (current : List Peer) : Text :=
  epochPart epoch ++ (ascii "\"currentMembers\":[" ++ (membersJson current ++ ascii "],"))

/-- The text before the application's snapshot. -/
def nextPart (epoch : ℕ) (current next : List Peer) : Text :=
  currentPart epoch current ++ (ascii "\"nextMembers\":[" ++ (membersJson next ++ ascii "],"))

variable {m : Text}

theorem absent_epochPart (hm : Marker m)
    (h : clear m (ascii "\x7b\"version\":1,\"membershipEpoch\":") = true) (tail : Text) :
    Absent m (epochPart epoch) tail := by
  have hdigits : 34 ∉ render 10 epoch ++ [44] := by
    rw [mem_append, not_or]
    exact ⟨fun hd => (mem_render hd).1 rfl, by decide⟩
  exact append (absent_of_clear h _) (hm.absent_of_not_mem hdigits _)

theorem absent_currentPart (hm : FieldMarker m)
    (h : clear m (ascii "\x7b\"version\":1,\"membershipEpoch\":") = true)
    (hlist : clear m (ascii "\"currentMembers\":[") = true) (tail : Text) :
    Absent m (currentPart epoch current) tail := by
  apply append
  · exact absent_epochPart epoch hm.toMarker h _
  · apply append
    · exact absent_of_clear hlist _
    · apply append
      · exact hm.absent_membersJson current _
      · exact hm.absent_of_not_mem (by decide) _

theorem absent_nextPart (hm : FieldMarker m)
    (h : clear m (ascii "\x7b\"version\":1,\"membershipEpoch\":") = true)
    (hlist : clear m (ascii "\"currentMembers\":[") = true)
    (hlist' : clear m (ascii "\"nextMembers\":[") = true) (tail : Text) :
    Absent m (nextPart epoch current next) tail := by
  apply append
  · exact absent_currentPart epoch hm h hlist _
  · apply append
    · exact absent_of_clear hlist' _
    · apply append
      · exact hm.absent_membersJson next _
      · exact hm.absent_of_not_mem (by decide) _

theorem wrap_current : wrapSnapshotPayloadWithMembershipEpoch current next epoch data =
      epochPart epoch ++ ((ascii "\"" ++ ascii "currentMembers" ++ ascii "\":[") ++
        (membersJson current ++ 93 :: (ascii ",\"nextMembers\":[" ++ (membersJson next ++
          (ascii "],\"stateMachineSnapshot\":" ++ (quoteJson (encode data) ++ [125])))))) := by
  simp [wrapSnapshotPayloadWithMembershipEpoch, epochPart, ascii]

theorem wrap_next : wrapSnapshotPayloadWithMembershipEpoch current next epoch data =
      currentPart epoch current ++ ((ascii "\"" ++ ascii "nextMembers" ++ ascii "\":[") ++
        (membersJson next ++ 93 :: (ascii ",\"stateMachineSnapshot\":" ++
          (quoteJson (encode data) ++ [125])))) := by
  simp [wrapSnapshotPayloadWithMembershipEpoch, currentPart, epochPart, ascii]

theorem wrap_snapshot : wrapSnapshotPayloadWithMembershipEpoch current next epoch data =
      nextPart epoch current next ++ (fieldMarker (ascii "stateMachineSnapshot") ++
        (quoteJson (encode data) ++ [125])) := by
  simp [wrapSnapshotPayloadWithMembershipEpoch, nextPart, currentPart, epochPart, fieldMarker, ascii]

theorem wrap_epoch : ∃ rest, wrapSnapshotPayloadWithMembershipEpoch current next epoch data =
      ascii "\x7b\"version\":1," ++ (fieldMarker (ascii "membershipEpoch") ++
        (render 10 epoch ++ 44 :: rest)) := by
  refine ⟨(ascii "\"currentMembers\":[" ++ (membersJson current ++
    (ascii "],\"nextMembers\":[" ++ (membersJson next ++ (ascii "],\"stateMachineSnapshot\":" ++
      (quoteJson (encode data) ++ [125])))))), ?_⟩
  simp [wrapSnapshotPayloadWithMembershipEpoch, fieldMarker, ascii]

theorem memberIds_current :
    memberIds (wrapSnapshotPayloadWithMembershipEpoch current next epoch data)
      (ascii "currentMembers") = current.mapM reread := by
  have hm : Marker (ascii "\"" ++ ascii "currentMembers" ++ ascii "\":[") :=
    ⟨99, ascii "urrentMembers", [91], rfl, by decide, forall_mem_of_all (by decide)⟩
  rw [wrap_current]
  exact memberIds_of_absent (absent_epochPart epoch hm (by decide))

theorem memberIds_next : memberIds (wrapSnapshotPayloadWithMembershipEpoch current next epoch data)
      (ascii "nextMembers") = next.mapM reread := by
  have hm : FieldMarker (ascii "\"" ++ ascii "nextMembers" ++ ascii "\":[") :=
    { shape := ⟨110, ascii "extMembers", [91], rfl, by decide, forall_mem_of_all (by decide)⟩
      object := by decide
      role := by
        intro r
        cases r <;> decide
      port := by decide }
  rw [wrap_next]
  exact memberIds_of_absent (absent_currentPart epoch hm (by decide) (by decide))

theorem stringField_snapshot :
    stringField (wrapSnapshotPayloadWithMembershipEpoch current next epoch data)
      (ascii "stateMachineSnapshot") = some (encode data) := by
  have hm : FieldMarker (fieldMarker (ascii "stateMachineSnapshot")) :=
    { shape :=
        ⟨115, ascii "tateMachineSnapshot", [], rfl, by decide, forall_mem_of_all (by decide)⟩
      object := by decide
      role := by
        intro r
        cases r <;> decide
      port := by decide }
  rw [wrap_snapshot]
  exact stringField_of_absent
    (fun tail => absent_nextPart epoch hm (by decide) (by decide) (by decide) _)
    (fun b hb => (mem_base64 hb).1) (fun b hb => (mem_base64 hb).2.1)

theorem unsignedField_epoch :
    unsignedField (wrapSnapshotPayloadWithMembershipEpoch current next epoch data)
      (ascii "membershipEpoch") = if epoch < 2 ^ 64 then some epoch else none := by
  have hm : Marker (fieldMarker (ascii "membershipEpoch")) :=
    ⟨109, ascii "embershipEpoch", [], rfl, by decide, forall_mem_of_all (by decide)⟩
  obtain ⟨rest, hrest⟩ := @wrap_epoch current next epoch data
  have hdigits : (render 10 epoch ++ 44 :: rest).takeWhile isAsciiDigit =
      render 10 epoch := by
    rw [takeWhile_append_of_pos fun c hc => (mem_render hc).2.1]
    simp [isAsciiDigit]
  rw [hrest, unsignedField, afterField_of_absent (absent_of_clear (by decide) _)]
  simp only [bind_eq_bind, bind_some, hdigits]
  rw [parse_render (by decide) (by decide), bind_some]

/-- If every member is read back as it is, the reader gives back what the writer was given;
an epoch beyond 64 bits reads as zero. -/
theorem decodeSnapshotPayload_wrap (hc : ∀ p ∈ current, reread p = some p)
    (hn : ∀ p ∈ next, reread p = some p) :
    decodeSnapshotPayload (wrapSnapshotPayloadWithMembershipEpoch current next epoch data) =
      some ⟨if epoch < 2 ^ 64 then epoch else 0, current, next, data⟩ := by
  rw [decodeSnapshotPayload, if_pos (wrap_valid epoch data hc hn), memberIds_current, memberIds_next,
    mapM_reread_iff.mpr hc, mapM_reread_iff.mpr hn, stringField_snapshot, unsignedField_epoch]
  simp only [bind_eq_bind, bind_some, decode_encode]
  split <;> rfl

/-- The envelope gives back the membership exactly if every id is printable and every member
with a closing brace in its id is a voter without a service name. -/
theorem envelope_recovered_iff (current next : List Peer) (epoch : UInt64) (data : Bytes) :
    decodeSnapshotPayload (wrapSnapshotPayloadWithMembershipEpoch current next epoch.toNat data) =
      some ⟨epoch.toNat, current, next, data⟩ ↔
    ∀ p ∈ current ++ next, p.id.all printableByte = true ∧
      (125 ∈ p.id → p.serviceName = 0 ∧ p.role = .voter) := by
  simp only [← reread_eq_self_iff, forall_mem_append]
  constructor
  · intro h
    rw [decodeSnapshotPayload, memberIds_current, memberIds_next] at h
    split at h
    · simp only [bind_eq_bind, bind_eq_some_iff] at h
      obtain ⟨read, hread, read', hread', _, -, _, -, h⟩ := h
      obtain ⟨-, rfl, rfl, -⟩ := SnapshotEnvelope.mk.inj (some_inj.mp h)
      exact ⟨mapM_reread_iff.mp hread, mapM_reread_iff.mp hread'⟩
    · cases h
  · rintro ⟨hc, hn⟩
    rw [decodeSnapshotPayload_wrap epoch.toNat data hc hn, if_pos epoch.toNat_lt]

theorem learner_reread_as_voter :
    decodeSnapshotPayload
        (wrapSnapshotPayloadWithMembershipEpoch [⟨ascii "a\x7d", 5, .learner⟩] [] 1 []) =
      some ⟨1, [⟨ascii "a\x7d", 0, .voter⟩], [], []⟩ := by
  decide +kernel

end Envelope

end Charlotte.Graft.SnapshotCodec
