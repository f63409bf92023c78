import Charlotte.Launch.Envelopes
import Charlotte.Lib.Checks

/-!
# Canonical encodings

The encoders of `deployment.rs` and `release.rs`, and that the decoders accept their output and
nothing else. An encoder writes the fields in the order of their offsets; the buffer it is given is its
capacity.
-/

namespace Charlotte.Launch

open Lib List Option

/-! ### Formats -/

section Format

variable {ε Fields : Type}

/-- A signed format: `encode` takes the fields, the key that will sign and the length of the buffer. The
bytes from `start` to `stop` hold the key and the signature. -/
structure CanonicalFormat (size : Fields → Except ε ℕ) (encode : Fields → Bytes → ℕ → Except ε Bytes)
    (decode : Bytes → Option Fields) (representable : Fields → Prop) (start stop : ℕ) : Prop where
  /-- Valid fields that fit into the buffer are encoded, and read back as they are. -/
  round_trip : ∀ fields publicKey capacity len, representable fields → size fields = .ok len →
    len ≤ capacity → ∃ bytes, encode fields publicKey capacity = .ok bytes ∧ bytes.length = len ∧
      decode bytes = some fields
  /-- Bytes that are accepted are the encoding of their fields, but for the key and the signature. -/
  canonical : ∀ bytes fields, decode bytes = some fields → representable fields ∧
    size fields = .ok bytes.length ∧ ∀ publicKey capacity, bytes.length ≤ capacity →
      ∃ encoded, encode fields publicKey capacity = .ok encoded ∧
        encoded.take start = bytes.take start ∧ encoded.drop stop = bytes.drop stop

theorem take_drop_signed {magic header key signature body : Bytes} {start stop : ℕ}
    (hsta : magic.length + header.length = start)
    (hstop : start + (key.length + signature.length) = stop) :
    (magic ++ (header ++ (key ++ (signature ++ body)))).take start = magic ++ header ∧
      (magic ++ (header ++ (key ++ (signature ++ body)))).drop stop = body := by
  have hhead : (magic ++ header).length = start := by rw [length_append, hsta]
  constructor
  · rw [← append_assoc]
    exact take_left' hhead
  · rw [← append_assoc, ← append_assoc key, ← append_assoc]
    exact drop_left' (by rw [length_append, hhead, length_append, hstop])

/-- Accepted bytes are determined by their fields, key and signature. -/
theorem CanonicalFormat.injective {size : Fields → Except ε ℕ}
    {encode : Fields → Bytes → ℕ → Except ε Bytes}
    {decode : Bytes → Option Fields} {representable : Fields → Prop} {start stop : ℕ}
    (hle : start ≤ stop)
    (h : CanonicalFormat size encode decode representable start stop) {first second : Bytes}
    {fields : Fields} (hfst : decode first = some fields) (hsec : decode second = some fields)
    (hsgn : (first.drop start).take (stop - start) = (second.drop start).take (stop - start)) :
    first = second := by
  obtain ⟨-, hsize₁, hcano₁⟩ := h.canonical first fields hfst
  obtain ⟨-, hsize₂, hcano₂⟩ := h.canonical second fields hsec
  have hlen : first.length = second.length := Except.ok.inj (hsize₁.symm.trans hsize₂)
  obtain ⟨_, henco, htake₁, hdrop₁⟩ := hcano₁ [] first.length le_rfl
  obtain ⟨_, henco', htake₂, hdrop₂⟩ := hcano₂ [] first.length (le_of_eq hlen.symm)
  cases henco.symm.trans henco'
  have hsplit : ∀ bytes : Bytes, bytes =
      bytes.take start ++ ((bytes.drop start).take (stop - start) ++ bytes.drop stop) := by
    intro bytes
    have hdrop : bytes.drop stop = (bytes.drop start).drop (stop - start) := by
      rw [drop_drop]
      congr 1
      omega
    rw [hdrop, take_append_drop, take_append_drop]
  rw [hsplit first, hsplit second, ← htake₁, ← htake₂, ← hdrop₁, ← hdrop₂, hsgn]

end Format

variable {bytes : Bytes}

/-- A magic, a header, a key of sixteen bytes, a signature, and the rest. -/
theorem eq_envelope {magic header : Bytes} {offset : ℕ} (hmag : bytes.take 8 = magic)
    (hhdr : bytes.drop 8 = header ++ bytes.drop offset) :
    bytes = magic ++ (header ++ ((bytes.drop offset).take 16 ++ ((bytes.drop (offset + 16)).take 64 ++
      bytes.drop (offset + 16 + 64)))) := by
  have hsplit : ∀ place count, bytes.drop place = (bytes.drop place).take count ++ bytes.drop (place + count) := by
    intro place count
    rw [← drop_drop]
    exact (take_append_drop count (bytes.drop place)).symm
  calc bytes = bytes.take 8 ++ bytes.drop 8 := (take_append_drop 8 bytes).symm
    _ = magic ++ (header ++ bytes.drop offset) := by rw [hmag, hhdr]
    _ = magic ++ (header ++ ((bytes.drop offset).take 16 ++ bytes.drop (offset + 16))) :=
        congrArg (fun rest => magic ++ (header ++ rest)) (hsplit offset 16)
    _ = _ := congrArg (fun rest => magic ++ (header ++ ((bytes.drop offset).take 16 ++ rest)))
        (hsplit (offset + 16) 64)

theorem length_signed (offset : ℕ) (h : offset + 16 + 64 ≤ bytes.length) :
    ((bytes.drop offset).take 16).length = 16 ∧ ((bytes.drop (offset + 16)).take 64).length = 64 := by
  simp only [length_take, length_drop]
  omega

variable {rest : Bytes}

/-- The magic and the header are read back from what starts with them. -/
theorem read_envelope {magic : Bytes} {fields : List (ℕ × ℕ)} {size : ℕ} (bytes : Bytes)
    (hbs : bytes = magic ++ (record fields ++ rest)) (hmag : magic.length = 8)
    (hsize : (record fields).length = size) (hfds : ∀ field ∈ fields, field.2 < 256 ^ field.1) :
    slice bytes 0 8 = some magic ∧
      takeRecord (fields.map Prod.fst) (bytes.drop 8) = some (fields.map Prod.snd, bytes.drop (8 + size)) := by
  have hdrop : bytes.drop 8 = record fields ++ rest := hbs ▸ drop_left' hmag
  constructor
  · rw [slice, if_pos ⟨by decide, by rw [hbs, length_append]; omega⟩, hbs]
    exact congrArg some (take_left' hmag)
  · rw [← drop_drop, hdrop, drop_left' hsize]
    exact takeRecord_append hfds rest

/-! ### Execution targets -/

namespace ExecutionTarget

/-- The numbers of a target and their widths. -/
def fields (target : ExecutionTarget) : List (ℕ × ℕ) :=
  [(2, target.architecture.machine), (2, 0), (4, target.runtimeAbi), (8, target.features)]

variable {target : ExecutionTarget}

theorem encode_eq (hval : target.valid = true) : target.encode = some (record target.fields) := by
  simp [encode, hval, record, fields, leBytes]

theorem machine_lt (architecture : Architecture) : architecture.machine < 256 ^ 2 := by
  cases architecture <;> decide

theorem fromMachine_machine (architecture : Architecture) :
    Architecture.fromMachine architecture.machine = some architecture := by
  cases architecture <;> rfl

theorem machine_of_fromMachine {machine : ℕ} {architecture : Architecture}
    (h : Architecture.fromMachine machine = some architecture) : machine = architecture.machine := by
  unfold Architecture.fromMachine at h
  split at h <;> cases h <;> rfl

theorem features_lt (hval : target.valid = true) : target.features < 256 ^ 8 := by
  obtain ⟨-, hkn⟩ := Bool.and_eq_true_iff.mp hval
  have hkn : target.features ≤ 3 := of_decide_eq_true hkn
  omega

/-- Targets are the bytes they are written as. -/
theorem decode_eq_some_iff : decode bytes = some target ↔
      target.valid = true ∧ target.runtimeAbi < 256 ^ 4 ∧ bytes = record target.fields := by
  have hread : takeRecord [2, 2, 4, 8] (bytes.drop 0) = some
      ([target.architecture.machine, 0, target.runtimeAbi, target.features], bytes.drop 16) ↔
      readLe 2 bytes 0 = some target.architecture.machine ∧ readLe 2 bytes 2 = some 0 ∧
        readLe 4 bytes 4 = some target.runtimeAbi ∧ readLe 8 bytes 8 = some target.features := by
    rw [takeRecord_drop_cons (by decide), takeRecord_drop_cons (by decide),
      takeRecord_drop_cons (by decide), takeRecord_drop_cons (by decide)]
    simp [takeRecord]
  constructor
  · intro h
    simp only [decode, bind_eq_bind] at h
    split at h
    · cases h
    rename_i hshp
    simp only [Bool.or_eq_true, bne_iff_ne, not_or, not_not] at hshp
    simp only [bind_eq_some_iff] at h
    obtain ⟨_, hmac, _, harch, _, habi, _, hfeat, h⟩ := h
    split at h
    · rename_i hval
      cases h
      cases machine_of_fromMachine harch
      have hzero : readLe 2 bytes 2 = some 0 := by
        rw [readLe, hshp.2]
        rfl
      have hrec := hread.mpr ⟨hmac, hzero, habi, hfeat⟩
      have hrest : bytes.drop 16 = [] := drop_eq_nil_of_le (le_of_eq hshp.1)
      refine ⟨hval, takeLe_lt ((readLe_eq_some_iff (by decide)).mp habi), ?_⟩
      have hbs := (takeRecord_spec hrec).2
      rw [hrest, append_nil] at hbs
      exact hbs
    · cases h
  · rintro ⟨hval, habi, hbs⟩
    have hlen : bytes.length = encodedLen := by
      rw [hbs, length_record]
      rfl
    have hrng : ∀ field ∈ target.fields, field.2 < 256 ^ field.1 := by
      simp only [fields, forall_mem_cons]
      exact ⟨machine_lt _, by decide, habi, features_lt hval, fun _ h => by cases h⟩
    have hrec := takeRecord_append hrng []
    rw [append_nil, ← hbs] at hrec
    have hrest : bytes.drop 16 = [] := drop_eq_nil_of_le (le_of_eq hlen)
    obtain ⟨hmac, _, habi, hfeat⟩ := hread.mp (by rw [hrest]; exact hrec)
    have hslice : slice bytes 2 4 = some [0, 0] := by
      rw [hbs]
      simp [slice, record, fields, leBytes]
    simp [decode, hlen, hslice, hmac, habi, hfeat, fromMachine_machine, hval]

end ExecutionTarget

/-! ### Variants and grants -/

/-- The fields of an artifact fit the types of the source. -/
structure ArtifactVariant.InRange (variant : ArtifactVariant) : Prop where
  runtimeAbi : variant.target.runtimeAbi < 256 ^ 4
  priority : variant.priority < 256 ^ 2
  artifactDigest : variant.artifactDigest.length = 32

namespace Deployment

/-- `encoded_len` has checked that the target is valid. -/
def variantBytes (variant : ArtifactVariant) : Bytes :=
  variant.target.encode.getD [] ++ (leBytes 2 variant.priority ++
    (leBytes 2 variant.objectKey.length ++ (variant.artifactDigest ++ variant.objectKey)))

def grantBytes (grant : CapabilityGrant) : Bytes :=
  leBytes 2 grant.rights ++ (leBytes 2 grant.service.length ++ grant.service)

theorem length_le_of_validName {value : Bytes} {maximum : ℕ} (h : validName value maximum = true) :
    value.length ≤ maximum := by
  simp only [validName, Bool.and_eq_true, decide_eq_true_eq] at h
  exact h.1.2

theorem takeVariant_eq_some_iff {variant : ArtifactVariant} :
    takeVariant bytes = some (variant, rest) ↔
      bytes = variantBytes variant ++ rest ∧ variant.InRange ∧ variant.target.valid = true ∧
        validName variant.objectKey maxObjectKeyLen = true := by
  constructor
  · intro h
    simp only [takeVariant, bind_eq_bind, bind_eq_some_iff, Prod.exists] at h
    obtain ⟨_, _, htgt, _, hdec, _, _, hprio, _, _, hkeyLen,
      digest, rest₄, hdigest, key, rest₅, hkey, h⟩ := h
    split at h
    · rename_i hname
      cases h
      obtain ⟨hval, habi, rfl⟩ := ExecutionTarget.decode_eq_some_iff.mp hdec
      obtain ⟨-, rfl⟩ := length_of_takeBytes htgt
      obtain ⟨hlen, hrest₃⟩ := length_of_takeBytes hdigest
      obtain ⟨rfl, hrest₄⟩ := length_of_takeBytes hkey
      refine ⟨?_, ⟨habi, takeLe_lt hprio, hlen⟩, hval, hname⟩
      rw [eq_of_takeLe hprio, eq_of_takeLe hkeyLen, hrest₃, hrest₄, variantBytes,
        ExecutionTarget.encode_eq hval]
      simp
    · cases h
  · rintro ⟨rfl, hrng, hval, hname⟩
    have htgt := takeBytes_append (record variant.target.fields) (leBytes 2 variant.priority ++
      (leBytes 2 variant.objectKey.length ++ (variant.artifactDigest ++ (variant.objectKey ++ rest))))
    have hlen : (record variant.target.fields).length = ExecutionTarget.encodedLen := by
      rfl
    have hdec := ExecutionTarget.decode_eq_some_iff.mpr ⟨hval, hrng.runtimeAbi, rfl⟩
    have hdigest := takeBytes_append variant.artifactDigest (variant.objectKey ++ rest)
    have hkey : variant.objectKey.length < 256 ^ 2 := by
      have hle := length_le_of_validName hname
      simp only [maxObjectKeyLen] at hle
      omega
    rw [hlen] at htgt
    rw [hrng.artifactDigest] at hdigest
    simp only [takeVariant, variantBytes, ExecutionTarget.encode_eq hval, getD_some,
      append_assoc, bind_eq_bind, htgt, bind_some, hdec,
      takeLe_append hrng.priority, takeLe_append hkey, hdigest, takeBytes_append, hname, if_true]

variable {grant : CapabilityGrant}

theorem takeGrant_eq
    (h : takeGrant bytes = some (grant, rest)) : bytes = grantBytes grant ++ rest := by
  simp only [takeGrant, bind_eq_bind, bind_eq_some_iff, Prod.exists] at h
  obtain ⟨_, _, hrights, _, _, hnameLen, _, _, hsvc, h⟩ := h
  cases h
  obtain ⟨rfl, hrest₂⟩ := length_of_takeBytes hsvc
  rw [eq_of_takeLe hrights, eq_of_takeLe hnameLen, hrest₂, grantBytes]
  simp

theorem takeGrant_append (hrights : grant.rights < 256 ^ 2)
    (hsvc : grant.service.length < 256 ^ 2) (rest : Bytes) :
    takeGrant (grantBytes grant ++ rest) = some (grant, rest) := by
  simp only [takeGrant, grantBytes, append_assoc, bind_eq_bind, takeLe_append hrights,
    takeLe_append hsvc, bind_some, takeBytes_append]

end Deployment

open Deployment

/-! ### Deployment descriptors -/

structure DescriptorFields where
  sequence : ℕ
  nodeKey : ℕ
  variants : List ArtifactVariant
  artifactName : Bytes
  stackPagesPerThread : ℕ
  maxThreads : ℕ
  shutdownGraceMs : ℕ
  placement : PlacementPolicy
  grants : List CapabilityGrant
  deriving DecidableEq, Repr

/-- What the decoder returns for the fields, with the bytes they were read from. -/
def DescriptorFields.descriptor (fields : DescriptorFields) (bytes : Bytes) : DeploymentDescriptor where
  bytes
  sequence := fields.sequence
  nodeKey := fields.nodeKey
  artifactName := fields.artifactName
  stackPagesPerThread := fields.stackPagesPerThread
  maxThreads := fields.maxThreads
  shutdownGraceMs := fields.shutdownGraceMs
  placement := fields.placement
  variants := fields.variants
  grants := fields.grants

def DeploymentDescriptor.fields (descriptor : DeploymentDescriptor) : DescriptorFields where
  sequence := descriptor.sequence
  nodeKey := descriptor.nodeKey
  variants := descriptor.variants
  artifactName := descriptor.artifactName
  stackPagesPerThread := descriptor.stackPagesPerThread
  maxThreads := descriptor.maxThreads
  shutdownGraceMs := descriptor.shutdownGraceMs
  placement := descriptor.placement
  grants := descriptor.grants

/-- The fields fit the types of the source; the others are bounded by the checks. -/
structure DescriptorFields.InRange (fields : DescriptorFields) : Prop where
  sequence : fields.sequence < 256 ^ 8
  nodeKey : fields.nodeKey < 256 ^ 8
  replicas : fields.placement.replicas < 256 ^ 2
  maxInstancesPerNode : fields.placement.maxInstancesPerNode < 256 ^ 2
  minDistinctNodes : fields.placement.minDistinctNodes < 256 ^ 2
  flags : fields.placement.flags < 256 ^ 2
  affinityGroup : fields.placement.affinityGroup < 256 ^ 8
  antiAffinityGroup : fields.placement.antiAffinityGroup < 256 ^ 8
  variants : ∀ variant ∈ fields.variants, variant.InRange

namespace Deployment

inductive EncodeError
  | bufferTooSmall
  | invalidArtifactName
  | invalidVariant
  | duplicateTarget
  | invalidGrant
  | invalidSequence
  | invalidStackPages
  | invalidMaxThreads
  | invalidShutdownGrace
  | invalidPlacement
  | tooLarge
  | tooManyGrants
  deriving DecidableEq, Repr

def keyIdLen : ℕ := 16
def signatureLen : ℕ := 64
def variantHeaderLen : ℕ := 52

/-- The loop over the variants, with the targets that it has passed. -/
def checkVariants (previous : List ExecutionTarget) : List ArtifactVariant → Except EncodeError Unit
  | [] => return ()
  | variant :: variants => do
      ensure (variant.target.valid = true ∧ validName variant.objectKey maxObjectKeyLen = true)
        .invalidVariant
      ensure (variant.target ∉ previous) .duplicateTarget
      checkVariants (variant.target :: previous) variants

def checkGrants : List CapabilityGrant → Except EncodeError Unit
  | [] => return ()
  | grant :: grants => do
      ensure (validName grant.service maxServiceNameLen = true ∧ validRights grant.rights = true)
        .invalidGrant
      checkGrants grants

/-- The sums of `encoded_len`, none of which overflows after the checks. -/
def sumLen (fields : DescriptorFields) : ℕ :=
  headerLen + fields.artifactName.length +
    (fields.variants.map fun variant => variantHeaderLen + variant.objectKey.length).sum +
    (fields.grants.map fun grant => 4 + grant.service.length).sum

def encodedLen (fields : DescriptorFields) : Except EncodeError ℕ := do
  ensure (fields.sequence ≠ 0) .invalidSequence
  ensure (1 ≤ fields.stackPagesPerThread ∧ fields.stackPagesPerThread ≤ maxUserStackPages)
    .invalidStackPages
  ensure (1 ≤ fields.maxThreads ∧ fields.maxThreads ≤ maxUserThreads) .invalidMaxThreads
  ensure (fields.shutdownGraceMs ≤ maxShutdownGraceMs) .invalidShutdownGrace
  ensure (fields.placement.validShape = true ∧ (fields.nodeKey ≠ 0 → fields.placement = .singleton))
    .invalidPlacement
  ensure (validArtifactName fields.artifactName = true) .invalidArtifactName
  ensure (fields.variants ≠ [] ∧ fields.variants.length ≤ maxVariants) .invalidVariant
  checkVariants [] fields.variants
  ensure (fields.grants.length ≤ maxGrants) .tooManyGrants
  checkGrants fields.grants
  ensure (sumLen fields ≤ maxDescriptorLen) .tooLarge
  return sumLen fields

/-- The numbers of the header behind the magic and before the key. -/
def headerFields (fields : DescriptorFields) (len : ℕ) : List (ℕ × ℕ) :=
  [(2, version), (2, headerLen), (4, len), (8, fields.sequence), (8, fields.nodeKey),
    (2, fields.artifactName.length), (2, fields.variants.length), (2, fields.grants.length),
    (2, fields.stackPagesPerThread), (2, fields.maxThreads), (2, 0), (4, fields.shutdownGraceMs),
    (2, fields.placement.replicas), (2, fields.placement.maxInstancesPerNode),
    (2, fields.placement.minDistinctNodes), (2, fields.placement.flags),
    (8, fields.placement.affinityGroup), (8, fields.placement.antiAffinityGroup)]

/-- The parts of a descriptor in the order of their offsets. -/
def assemble (fields : DescriptorFields) (len : ℕ) (keyId signature : Bytes) : Bytes :=
  magic ++ (record (headerFields fields len) ++ (keyId ++ (signature ++
    (fields.artifactName ++ (fields.variants.flatMap variantBytes ++
      fields.grants.flatMap grantBytes)))))

/-- The bytes of a descriptor with its key and signature. -/
def encodeSigned (fields : DescriptorFields) (keyId signature : Bytes) : Bytes :=
  assemble fields (sumLen fields) keyId signature

/-- `encode_unsigned`, with the length of the buffer. -/
def encodeUnsigned (crypto : Crypto) (fields : DescriptorFields) (publicKey : Bytes) (capacity : ℕ) :
    Except EncodeError Bytes := do
  let len ← encodedLen fields
  ensure (len ≤ capacity) .bufferTooSmall
  return encodeSigned fields ((crypto.digest publicKey).take keyIdLen) (List.replicate signatureLen 0)

/-- What `encoded_len` checks. -/
structure Valid (fields : DescriptorFields) : Prop where
  sequence : fields.sequence ≠ 0
  stackPages : 1 ≤ fields.stackPagesPerThread ∧ fields.stackPagesPerThread ≤ maxUserStackPages
  maxThreads : 1 ≤ fields.maxThreads ∧ fields.maxThreads ≤ maxUserThreads
  shutdownGrace : fields.shutdownGraceMs ≤ maxShutdownGraceMs
  placement : fields.placement.validShape = true ∧ (fields.nodeKey ≠ 0 → fields.placement = .singleton)
  artifactName : validArtifactName fields.artifactName = true
  variants : fields.variants ≠ [] ∧ fields.variants.length ≤ maxVariants
  targets : ∀ variant ∈ fields.variants, variant.target.valid = true ∧
    validName variant.objectKey maxObjectKeyLen = true
  distinct : (fields.variants.map (·.target)).Nodup
  grantCount : fields.grants.length ≤ maxGrants
  grants : ∀ grant ∈ fields.grants, validName grant.service maxServiceNameLen = true ∧
    validRights grant.rights = true
  len : sumLen fields ≤ maxDescriptorLen

theorem checkVariants_eq_ok {previous : List ExecutionTarget} {variants : List ArtifactVariant}
    {u : Unit} : checkVariants previous variants = .ok u ↔
      (∀ variant ∈ variants, variant.target.valid = true ∧
        validName variant.objectKey maxObjectKeyLen = true) ∧
      (variants.map (·.target)).Nodup ∧ ∀ variant ∈ variants, variant.target ∉ previous := by
  induction variants generalizing previous with
  | nil => simp [checkVariants, pure, Except.pure]
  | cons variant variants ih =>
    rw [checkVariants, ensure_bind_ok, ensure_bind_ok, ih, forall_mem_cons,
      List.forall_mem_cons, List.map_cons, List.nodup_cons, List.mem_map]
    simp only [mem_cons]
    constructor
    · rintro ⟨hval, hnew, hvalids, hnd, hnews⟩
      refine ⟨⟨hval, hvalids⟩, ⟨?_, hnd⟩, hnew, fun other hoth hmem => ?_⟩
      · rintro ⟨other, hoth, hsame⟩
        exact hnews other hoth (.inl hsame)
      · exact hnews other hoth (.inr hmem)
    · rintro ⟨⟨hval, hvalids⟩, ⟨hnot, hnd⟩, hnew, hnews⟩
      refine ⟨hval, hnew, hvalids, hnd, fun other hoth hmem => ?_⟩
      rcases hmem with hsame | hmem
      · exact hnot ⟨other, hoth, hsame⟩
      · exact hnews other hoth hmem

theorem checkGrants_eq_ok {grants : List CapabilityGrant} {u : Unit} :
    checkGrants grants = .ok u ↔ ∀ grant ∈ grants,
      validName grant.service maxServiceNameLen = true ∧ validRights grant.rights = true := by
  induction grants with
  | nil => simp [checkGrants, pure, Except.pure]
  | cons grant grants ih => rw [checkGrants, ensure_bind_ok, ih, forall_mem_cons]

variable {fields : DescriptorFields} {len : ℕ}

theorem encodedLen_eq_ok : encodedLen fields = .ok len ↔ Valid fields ∧ len = sumLen fields := by
  unfold encodedLen
  rw [ensure_bind_ok, ensure_bind_ok, ensure_bind_ok, ensure_bind_ok, ensure_bind_ok,
    ensure_bind_ok, ensure_bind_ok, check_bind_eq_ok, ensure_bind_ok, check_bind_eq_ok,
    ensure_bind_ok, checkVariants_eq_ok, checkGrants_eq_ok]
  constructor
  · rintro ⟨hseq, hstack, hthr, hgrace, hplc, hname, hcnt, ⟨htarg, hnd, -⟩,
      hgrantCount, hgrts, hlen, h⟩
    cases h
    exact ⟨⟨hseq, hstack, hthr, hgrace, hplc, hname, hcnt, htarg, hnd, hgrantCount, hgrts, hlen⟩, rfl⟩
  · rintro ⟨h, rfl⟩
    exact ⟨h.sequence, h.stackPages, h.maxThreads, h.shutdownGrace, h.placement, h.artifactName, h.variants,
      ⟨h.targets, h.distinct, nofun⟩, h.grantCount, h.grants, h.len, rfl⟩

theorem length_variantBytes {variant : ArtifactVariant} (hval : variant.target.valid = true)
    (hrng : variant.InRange) :
    (variantBytes variant).length = variantHeaderLen + variant.objectKey.length := by
  simp only [variantBytes, ExecutionTarget.encode_eq hval, getD_some, length_append,
    length_record, length_leBytes, hrng.artifactDigest, ExecutionTarget.fields, map_cons, map_nil,
    sum_cons, sum_nil, variantHeaderLen]
  omega

theorem length_magic : magic.length = 8 := by decide

theorem length_header (fields : DescriptorFields) (len : ℕ) :
    (record (headerFields fields len)).length = 64 := by
  rw [length_record]
  simp [headerFields]

variable {keyId signature : Bytes}

theorem length_assemble
    (htarg : ∀ variant ∈ fields.variants, variant.target.valid = true ∧ variant.InRange)
    (hkey : keyId.length = keyIdLen) (hsig : signature.length = signatureLen) :
    (assemble fields len keyId signature).length = sumLen fields := by
  have hvars : (fields.variants.flatMap variantBytes).length =
      (fields.variants.map fun variant => variantHeaderLen + variant.objectKey.length).sum := by
    rw [length_flatMap]
    refine congrArg sum (map_congr_left fun variant hmem => ?_)
    exact length_variantBytes (htarg variant hmem).1 (htarg variant hmem).2
  have hgrts : (fields.grants.flatMap grantBytes).length =
      (fields.grants.map fun grant => 4 + grant.service.length).sum := by
    rw [length_flatMap]
    refine congrArg sum (map_congr_left fun grant _ => ?_)
    simp only [grantBytes, length_append, length_leBytes]
    omega
  simp only [assemble, length_append, hvars, hgrts, hkey, hsig, length_magic,
    length_header, sumLen, headerLen, keyIdLen, signatureLen]
  omega

variable {bytes : Bytes}

/-- The numbers of a header, read in place. -/
theorem readHeader_iff : takeRecord ((headerFields fields len).map Prod.fst) (bytes.drop 8) =
        some ((headerFields fields len).map Prod.snd, bytes.drop 72) ↔
      readLe 2 bytes 8 = some version ∧ readLe 2 bytes 10 = some headerLen ∧
      readLe 4 bytes 12 = some len ∧ readLe 8 bytes 16 = some fields.sequence ∧
      readLe 8 bytes 24 = some fields.nodeKey ∧ readLe 2 bytes 32 = some fields.artifactName.length ∧
      readLe 2 bytes 34 = some fields.variants.length ∧ readLe 2 bytes 36 = some fields.grants.length ∧
      readLe 2 bytes 38 = some fields.stackPagesPerThread ∧ readLe 2 bytes 40 = some fields.maxThreads ∧
      readLe 2 bytes 42 = some 0 ∧ readLe 4 bytes 44 = some fields.shutdownGraceMs ∧
      readLe 2 bytes 48 = some fields.placement.replicas ∧
      readLe 2 bytes 50 = some fields.placement.maxInstancesPerNode ∧
      readLe 2 bytes 52 = some fields.placement.minDistinctNodes ∧
      readLe 2 bytes 54 = some fields.placement.flags ∧
      readLe 8 bytes 56 = some fields.placement.affinityGroup ∧
      readLe 8 bytes 64 = some fields.placement.antiAffinityGroup := by
  simp only [headerFields, map_cons, map_nil]
  repeat rw [takeRecord_drop_cons (by decide)]
  simp only [takeRecord, and_true, Nat.reduceAdd]

theorem decode_spec {descriptor : DeploymentDescriptor} (h : decode bytes = some descriptor) :
    Valid descriptor.fields ∧ descriptor.fields.InRange ∧ descriptor.bytes = bytes ∧
      headerLen ≤ bytes.length ∧ bytes.length = sumLen descriptor.fields ∧
      bytes = encodeSigned descriptor.fields ((bytes.drop keyIdOffset).take keyIdLen)
        ((bytes.drop signatureOffset).take signatureLen) := by
  simp only [decode, ↓read_bind_some, ↓Prod.exists] at h
  obtain ⟨_, hshp, stack, hstack, _, hstackRange, threads, hthr, _, hthreadsRange, grace, hgrace, _,
    hgraceRange, replicas, hreps, maxInstances, hmax, minDistinct, hmin, flags, hfl, affinity, haffi,
    anti, hanti, _, hplc, _, htot, _, htotalRange, sequence, hseq, _, hnonz, nodeKey, hnodeKey, _, hpin,
    _, hrsv, _, hnameLen, _, hvariantCount, _, hgrantCount, _, hcts, name, _, hname, _, hnameValid,
    variants, _, hvars, _, hdis, grants, _, hgrts, _, hgrantsValid, _, hend, h⟩ := h
  cases h
  rw [reject_eq_some] at hpin hgrantsValid
  simp only [reject_eq_some, Bool.or_eq_false_iff, decide_eq_false_iff_not, bne_eq_false_iff_eq, not_lt,
    beq_eq_false_iff_ne] at hshp hstackRange hthreadsRange hgraceRange htotalRange hrsv hcts hnonz
  obtain ⟨⟨⟨hlong, hmag⟩, hver⟩, hheaderLen⟩ := hshp
  obtain ⟨rfl, htotalRange⟩ := htotalRange
  simp only [reject_eq_some, Bool.not_eq_false', List.isEmpty_iff, decide_eq_true_eq]
    at hplc hnameValid hdis hend
  subst hend
  obtain ⟨rfl, hbody⟩ := length_of_takeBytes hname
  obtain rfl := length_of_takeMany hvars
  obtain rfl := length_of_takeMany hgrts
  set fields : DescriptorFields := ⟨sequence, nodeKey, variants, name, stack, threads, grace,
    ⟨replicas, maxInstances, minDistinct, flags, affinity, anti⟩, grants⟩ with hfds
  have hits := takeMany_forall (P := fun variant => variant.InRange ∧ variant.target.valid = true ∧
    validName variant.objectKey maxObjectKeyLen = true)
    (fun _ _ _ hread => (takeVariant_eq_some_iff.mp hread).2) hvars
  have hrec : takeRecord ((headerFields fields bytes.length).map Prod.fst) (bytes.drop 8) =
      some ((headerFields fields bytes.length).map Prod.snd, bytes.drop 72) :=
    readHeader_iff.mpr ⟨hver, hheaderLen, htot, hseq, hnodeKey, hnameLen, hvariantCount,
      hgrantCount, hstack, hthr, hrsv, hgrace, hreps, hmax, hmin, hfl, haffi, hanti⟩
  have hhdr := eq_record_of_takeRecord hrec
  have hmag := take_of_slice hmag
  have hwh : bytes = assemble fields bytes.length ((bytes.drop keyIdOffset).take keyIdLen)
      ((bytes.drop signatureOffset).take signatureLen) := by
    have hvariantsBytes := eq_of_takeMany (fun _ _ _ hread => (takeVariant_eq_some_iff.mp hread).1) hvars
    have hgrantsBytes := eq_of_takeMany (fun _ _ _ hread => takeGrant_eq hread) hgrts
    rw [hgrantsBytes, append_nil] at hvariantsBytes
    rw [hvariantsBytes] at hbody
    have henv := eq_envelope hmag hhdr
    rw [show 72 + 16 + 64 = headerLen from rfl, hbody] at henv
    exact henv
  obtain ⟨hkeyLength, hsignatureLength⟩ := length_signed keyIdOffset hlong
  have hsum : bytes.length = sumLen fields :=
    (congrArg List.length hwh).trans (length_assemble (fun variant hmem =>
      ⟨(hits variant hmem).2.1, (hits variant hmem).1⟩) hkeyLength hsignatureLength)
  refine ⟨⟨hnonz, ?_, ?_, hgraceRange, ⟨hplc, fun hne => ?_⟩, hnameValid, ⟨?_, hcts.2⟩,
      fun variant hmem => (hits variant hmem).2, hdis, hcts.1.1, fun grant hmem => ?_,
      hsum ▸ htotalRange⟩,
    ⟨readLe_lt (by decide) hseq, readLe_lt (by decide) hnodeKey, readLe_lt (by decide) hreps,
      readLe_lt (by decide) hmax, readLe_lt (by decide) hmin, readLe_lt (by decide) hfl,
      readLe_lt (by decide) haffi, readLe_lt (by decide) hanti, fun variant hmem => (hits variant hmem).1⟩,
    rfl, hlong, hsum, hwh.trans (congrArg (fun len => assemble fields len _ _) hsum)⟩
  · exact hstackRange
  · exact hthreadsRange
  · by_contra hsg
    have hboth := Bool.and_eq_false_iff.mp hpin
    simp only [bne_eq_false_iff_eq] at hboth
    exact hboth.elim hne hsg
  · intro hnil
    exact hcts.1.2 (length_eq_zero_iff.mpr hnil)
  · have hnot := any_eq_false.mp hgrantsValid grant hmem
    simp only [Bool.or_eq_true, Bool.not_eq_true', not_or, Bool.not_eq_false] at hnot
    exact hnot

theorem grant_lt {grant : CapabilityGrant}
    (h : validName grant.service maxServiceNameLen = true ∧ validRights grant.rights = true) :
    grant.rights < 256 ^ 2 ∧ grant.service.length < 256 ^ 2 := by
  have hname := length_le_of_validName h.1
  obtain ⟨-, hrights⟩ := Bool.and_eq_true_iff.mp h.2
  have hrights : grant.rights ≤ 7 := of_decide_eq_true hrights
  simp only [maxServiceNameLen] at hname
  omega

theorem headerFields_lt (hval : Valid fields) (hrng : fields.InRange) :
    ∀ field ∈ headerFields fields (sumLen fields), field.2 < 256 ^ field.1 := by
  have hname := length_le_of_validName hval.artifactName
  obtain ⟨-, hvars⟩ := hval.variants
  have hgrts := hval.grantCount
  obtain ⟨-, hstack⟩ := hval.stackPages
  obtain ⟨-, hthr⟩ := hval.maxThreads
  have hgrace := hval.shutdownGrace
  have hlen := hval.len
  simp only [maxArtifactNameLen, maxVariants, maxGrants, maxUserStackPages, maxUserThreads,
    maxShutdownGraceMs, maxDescriptorLen] at hname hvars hgrts hstack hthr hgrace hlen
  simp only [headerFields, forall_mem_cons]
  exact ⟨by decide, by decide, by omega, hrng.sequence, hrng.nodeKey, by omega, by omega, by omega,
    by omega, by omega, by decide, by omega, hrng.replicas, hrng.maxInstancesPerNode,
    hrng.minDistinctNodes, hrng.flags, hrng.affinityGroup, hrng.antiAffinityGroup,
    nofun⟩

/-- What an encoding and the bytes that were read have in common. -/
theorem take_drop_encodeSigned (fields : DescriptorFields)
    (hkey : keyId.length = keyIdLen) (hsig : signature.length = signatureLen) :
    (encodeSigned fields keyId signature).take keyIdOffset =
        magic ++ record (headerFields fields (sumLen fields)) ∧
      (encodeSigned fields keyId signature).drop headerLen = fields.artifactName ++
        (fields.variants.flatMap variantBytes ++ fields.grants.flatMap grantBytes) :=
  take_drop_signed (by rw [length_magic, length_header]; rfl) (by rw [hkey, hsig]; rfl)

theorem length_encodeSigned (hval : Valid fields) (hrng : fields.InRange)
    (hkey : keyId.length = keyIdLen) (hsig : signature.length = signatureLen) :
    (encodeSigned fields keyId signature).length = sumLen fields :=
  length_assemble (fun variant hmem => ⟨(hval.targets variant hmem).1, hrng.variants variant hmem⟩)
    hkey hsig

theorem decode_encodeSigned (hval : Valid fields)
    (hrng : fields.InRange) (hkey : keyId.length = keyIdLen) (hsig : signature.length = signatureLen) :
    decode (encodeSigned fields keyId signature) =
      some (fields.descriptor (encodeSigned fields keyId signature)) := by
  have hlen := length_encodeSigned hval hrng hkey hsig
  have hdropBody := (take_drop_encodeSigned fields hkey hsig).2
  obtain ⟨hmag, hrec⟩ := read_envelope (encodeSigned fields keyId signature) rfl length_magic
    (length_header _ _) (headerFields_lt hval hrng)
  have hlong : headerLen ≤ (encodeSigned fields keyId signature).length := by
    rw [hlen, sumLen]
    omega
  obtain ⟨hver, hheaderLen, htot, hseq, hnodeKey, hnameLen, hvariantCount, hgrantCount, hstack,
    hthr, hrsv, hgrace, hreps, hmax, hmin, hfl, haffi, hanti⟩ := readHeader_iff.mp hrec
  have hname := takeBytes_append fields.artifactName
    (fields.variants.flatMap variantBytes ++ fields.grants.flatMap grantBytes)
  rw [← hdropBody] at hname
  have hvars := takeMany_append (fun variant hmem rest => takeVariant_eq_some_iff.mpr
    ⟨rfl, hrng.variants variant hmem, hval.targets variant hmem⟩) (fields.grants.flatMap grantBytes)
  have hgrts := takeMany_append (fun grant hmem rest => takeGrant_append
    (grant_lt (hval.grants grant hmem)).1 (grant_lt (hval.grants grant hmem)).2 rest) []
  rw [append_nil] at hgrts
  simp only [decode, ↓read_bind_some, ↓Prod.exists]
  exact ⟨(), by simp [hlong, hmag, hver, hheaderLen],
    _, hstack, (), by simpa [Nat.one_le_iff_ne_zero] using hval.stackPages,
    _, hthr, (), by simpa [Nat.one_le_iff_ne_zero] using hval.maxThreads,
    _, hgrace, (), by simpa using hval.shutdownGrace,
    _, hreps, _, hmax, _, hmin, _, hfl, _, haffi, _, hanti, (), by simpa using hval.placement.1,
    _, htot, (), by simpa [hlen] using hval.len, _, hseq, (), by simpa using hval.sequence,
    _, hnodeKey, (), by simpa using hval.placement.2, (), by simp [hrsv],
    _, hnameLen, _, hvariantCount, _, hgrantCount,
    (), by simpa using ⟨⟨hval.grantCount, hval.variants.1⟩, hval.variants.2⟩,
    _, _, hname, (), by simpa using hval.artifactName, _, _, hvars, (), by simpa using hval.distinct,
    _, _, hgrts, (), by simpa using hval.grants, (), rfl, rfl⟩

theorem length_keyId (crypto : Crypto) (publicKey : Bytes) :
    ((crypto.digest publicKey).take keyIdLen).length = keyIdLen := by
  rw [length_take, crypto.length_digest]
  rfl

theorem canonicalFormat (crypto : Crypto) :
    CanonicalFormat encodedLen (encodeUnsigned crypto) (fun bytes => (decode bytes).map (·.fields))
      DescriptorFields.InRange keyIdOffset headerLen := by
  constructor
  · intro fields publicKey capacity len hrng hsize hcap
    obtain ⟨hval, rfl⟩ := encodedLen_eq_ok.mp hsize
    have hkey := length_keyId crypto publicKey
    refine ⟨_, bind_eq_ok.mpr ⟨_, hsize, ensure_bind_ok.mpr ⟨hcap, rfl⟩⟩,
      length_encodeSigned hval hrng hkey length_replicate, ?_⟩
    simp only [decode_encodeSigned hval hrng hkey length_replicate, map_some]
    rfl
  · intro bytes fields h
    obtain ⟨descriptor, hdec, rfl⟩ := map_eq_some_iff.mp h
    obtain ⟨hval, hrng, -, hlong, hlen, hbs⟩ := decode_spec hdec
    obtain ⟨hkey, hsig⟩ := length_signed keyIdOffset hlong
    refine ⟨hrng, encodedLen_eq_ok.mpr ⟨hval, hlen⟩, fun publicKey capacity hcap => ?_⟩
    refine ⟨_, bind_eq_ok.mpr ⟨_, encodedLen_eq_ok.mpr ⟨hval, rfl⟩,
      ensure_bind_ok.mpr ⟨hlen ▸ hcap, rfl⟩⟩, ?_⟩
    obtain ⟨htake, hdrop⟩ := take_drop_encodeSigned descriptor.fields hkey hsig
    obtain ⟨htake', hdrop'⟩ := take_drop_encodeSigned descriptor.fields (length_keyId crypto publicKey)
      (length_replicate (n := signatureLen) (a := (0 : UInt8)))
    exact ⟨htake'.trans (htake.symm.trans (congrArg (take _) hbs.symm)),
      hdrop'.trans (hdrop.symm.trans (congrArg (drop _) hbs.symm))⟩

end Deployment

/-! ### Release envelopes -/

structure ReleaseFields where
  sequence : ℕ
  releaseName : Bytes
  descriptors : List Bytes
  deriving DecidableEq, Repr

def ReleaseFields.envelope (fields : ReleaseFields) (bytes : Bytes) : ReleaseEnvelope :=
  ⟨bytes, fields.sequence, fields.releaseName, fields.descriptors⟩

def ReleaseEnvelope.fields (envelope : ReleaseEnvelope) : ReleaseFields :=
  ⟨envelope.sequence, envelope.releaseName, envelope.descriptors⟩

/-- The sequence is a word; the rest is bounded by the checks. -/
def ReleaseFields.InRange (fields : ReleaseFields) : Prop := fields.sequence < 256 ^ 8

namespace Release

inductive EncodeError
  | bufferTooSmall
  | duplicateArtifact
  | invalidDescriptor
  | invalidReleaseName
  | invalidSequence
  | tooLarge
  | tooManyDescriptors
  deriving DecidableEq, Repr

/-- The loop of `validate_descriptors`, with the names that it has passed; those decode. -/
def checkDescriptors (previous : List Bytes) : List Bytes → Except EncodeError Unit
  | [] => return ()
  | bytes :: descriptors => do
      let descriptor ← okOr (Deployment.decode bytes) .invalidDescriptor
      ensure (descriptor.artifactName ∉ previous) .duplicateArtifact
      checkDescriptors (descriptor.artifactName :: previous) descriptors

def sumLen (fields : ReleaseFields) : ℕ :=
  headerLen + fields.releaseName.length + (fields.descriptors.map fun bytes => 2 + bytes.length).sum

def encodedLen (fields : ReleaseFields) : Except EncodeError ℕ := do
  ensure (fields.sequence ≠ 0) .invalidSequence
  ensure (validReleaseName fields.releaseName = true) .invalidReleaseName
  ensure (fields.descriptors ≠ [] ∧ fields.descriptors.length ≤ maxDescriptors) .tooManyDescriptors
  checkDescriptors [] fields.descriptors
  ensure (sumLen fields ≤ maxReleaseLen) .tooLarge
  return sumLen fields

def headerFields (fields : ReleaseFields) (len : ℕ) : List (ℕ × ℕ) :=
  [(2, version), (2, headerLen), (4, len), (8, fields.sequence), (2, fields.releaseName.length),
    (2, fields.descriptors.length), (4, 0)]

def descriptorBytes (bytes : Bytes) : Bytes := leBytes 2 bytes.length ++ bytes

def assemble (fields : ReleaseFields) (len : ℕ) (keyId signature : Bytes) : Bytes :=
  magic ++ (record (headerFields fields len) ++ (keyId ++ (signature ++
    (fields.releaseName ++ fields.descriptors.flatMap descriptorBytes))))

def encodeSigned (fields : ReleaseFields) (keyId signature : Bytes) : Bytes :=
  assemble fields (sumLen fields) keyId signature

/-- `encode_unsigned`, with the length of the buffer. -/
def encodeUnsigned (crypto : Crypto) (fields : ReleaseFields) (publicKey : Bytes) (capacity : ℕ) :
    Except EncodeError Bytes := do
  let len ← encodedLen fields
  ensure (len ≤ capacity) .bufferTooSmall
  return encodeSigned fields ((crypto.digest publicKey).take keyIdLen)
    (List.replicate signatureLen 0)

/-- What `encoded_len` checks. -/
structure Valid (fields : ReleaseFields) : Prop where
  sequence : fields.sequence ≠ 0
  releaseName : validReleaseName fields.releaseName = true
  count : fields.descriptors ≠ [] ∧ fields.descriptors.length ≤ maxDescriptors
  artifacts : ∃ names, artifactNames fields.descriptors = some names ∧ names.Nodup
  len : sumLen fields ≤ maxReleaseLen

variable {bytes : Bytes} {descriptors names : List Bytes}

theorem artifactNames_cons :
    artifactNames (bytes :: descriptors) = some names ↔ ∃ descriptor others,
      Deployment.decode bytes = some descriptor ∧ artifactNames descriptors = some others ∧
        names = descriptor.artifactName :: others := by
  simp only [artifactNames, List.mapM_cons, Option.bind_eq_bind, Option.bind_eq_some_iff,
    Option.map_eq_some_iff, Option.pure_def, Option.some.injEq]
  constructor
  · rintro ⟨_, ⟨descriptor, hdec, rfl⟩, others, hoths, rfl⟩
    exact ⟨descriptor, others, hdec, hoths, rfl⟩
  · rintro ⟨descriptor, others, hdec, hoths, rfl⟩
    exact ⟨_, ⟨descriptor, hdec, rfl⟩, others, hoths, rfl⟩

theorem checkDescriptors_eq_ok {previous : List Bytes} {u : Unit} :
    checkDescriptors previous descriptors = .ok u ↔ ∃ names, artifactNames descriptors = some names ∧
      names.Nodup ∧ ∀ name ∈ names, name ∉ previous := by
  induction descriptors generalizing previous with
  | nil => simp [checkDescriptors, artifactNames, pure, Except.pure]
  | cons bytes descriptors ih =>
    rw [checkDescriptors, okOr_bind_ok]
    simp only [ensure_bind_ok, ih, artifactNames_cons]
    constructor
    · rintro ⟨descriptor, hdec, hnew, others, hoths, hnd, hnews⟩
      refine ⟨_, ⟨descriptor, others, hdec, hoths, rfl⟩, nodup_cons.mpr ⟨fun hmem => ?_, hnd⟩, ?_⟩
      · exact hnews _ hmem mem_cons_self
      · exact forall_mem_cons.mpr
          ⟨hnew, fun name hmem hold => hnews name hmem (mem_cons_of_mem _ hold)⟩
    · rintro ⟨_, ⟨descriptor, others, hdec, hoths, rfl⟩, hnd, hnews⟩
      obtain ⟨hnot, hnd⟩ := nodup_cons.mp hnd
      obtain ⟨hnew, hnews⟩ := forall_mem_cons.mp hnews
      refine ⟨descriptor, hdec, hnew, others, hoths, hnd, fun name hmem hold => ?_⟩
      rcases mem_cons.mp hold with rfl | hold
      · exact hnot hmem
      · exact hnews name hmem hold

variable {fields : ReleaseFields} {len : ℕ}

theorem encodedLen_eq_ok : encodedLen fields = .ok len ↔ Valid fields ∧ len = sumLen fields := by
  unfold encodedLen
  rw [ensure_bind_ok, ensure_bind_ok, ensure_bind_ok, check_bind_eq_ok, ensure_bind_ok,
    checkDescriptors_eq_ok]
  constructor
  · rintro ⟨hseq, hname, hcnt, ⟨names, hnms, hnd, -⟩, hlen, h⟩
    cases h
    exact ⟨⟨hseq, hname, hcnt, ⟨names, hnms, hnd⟩, hlen⟩, rfl⟩
  · rintro ⟨h, rfl⟩
    obtain ⟨names, hnms, hnd⟩ := h.artifacts
    exact ⟨h.sequence, h.releaseName, h.count, ⟨names, hnms, hnd, nofun⟩, h.len, rfl⟩

theorem length_magic : magic.length = 8 := by decide

theorem length_header (fields : ReleaseFields) (len : ℕ) :
    (record (headerFields fields len)).length = 24 := by
  rw [length_record]
  simp [headerFields]

variable {keyId signature descriptor : Bytes}

theorem length_assemble (hkey : keyId.length = keyIdLen) (hsig : signature.length = signatureLen) :
    (assemble fields len keyId signature).length = sumLen fields := by
  have hdescs : (fields.descriptors.flatMap descriptorBytes).length =
      (fields.descriptors.map fun bytes => 2 + bytes.length).sum := by
    rw [length_flatMap]
    refine congrArg sum (map_congr_left fun bytes _ => ?_)
    rw [descriptorBytes, length_append, length_leBytes]
  simp only [assemble, length_append, hdescs, hkey, hsig, length_magic, length_header,
    sumLen, headerLen, keyIdLen, signatureLen]
  omega

theorem readHeader_iff : takeRecord ((headerFields fields len).map Prod.fst) (bytes.drop 8) =
        some ((headerFields fields len).map Prod.snd, bytes.drop 32) ↔
      readLe 2 bytes 8 = some version ∧ readLe 2 bytes 10 = some headerLen ∧
      readLe 4 bytes 12 = some len ∧ readLe 8 bytes 16 = some fields.sequence ∧
      readLe 2 bytes 24 = some fields.releaseName.length ∧
      readLe 2 bytes 26 = some fields.descriptors.length ∧ readLe 4 bytes 28 = some 0 := by
  simp only [headerFields, map_cons, map_nil]
  repeat rw [takeRecord_drop_cons (by decide)]
  simp only [takeRecord, and_true, Nat.reduceAdd]

theorem takeDescriptor_eq (h : takeDescriptor bytes = some (descriptor, rest)) :
    bytes = descriptorBytes descriptor ++ rest := by
  obtain ⟨⟨_, _⟩, hlen, hdesc⟩ := bind_eq_some_iff.mp h
  obtain ⟨rfl, hmid⟩ := length_of_takeBytes hdesc
  rw [eq_of_takeLe hlen, hmid, descriptorBytes, append_assoc]

theorem takeDescriptor_append (h : descriptor.length < 256 ^ 2) (rest : Bytes) :
    takeDescriptor (descriptorBytes descriptor ++ rest) = some (descriptor, rest) := by
  rw [takeDescriptor, descriptorBytes, append_assoc, takeLe_append h, bind_some]
  exact takeBytes_append descriptor rest

theorem decode_encodes {envelope : ReleaseEnvelope} (h : decode bytes = some envelope) :
    Valid envelope.fields ∧ envelope.fields.InRange ∧ headerLen ≤ bytes.length ∧
      bytes.length = sumLen envelope.fields ∧ bytes = encodeSigned envelope.fields ((bytes.drop keyIdOffset).take keyIdLen)
        ((bytes.drop signatureOffset).take signatureLen) := by
  simp only [decode, ↓read_bind_some, ↓Prod.exists] at h
  obtain ⟨_, hshp, _, htot, _, htotalRange, sequence, hseq, _, hnameLen, _, hcnt, _, hcts, name, _,
    hname, _, hnameValid, descriptors, _, hdescs, names, hnms, _, hdis, _, hend, h⟩ := h
  cases h
  simp only [reject_eq_some, Bool.or_eq_false_iff, decide_eq_false_iff_not, bne_eq_false_iff_eq,
    not_lt, beq_eq_false_iff_ne] at hshp htotalRange hcts
  simp only [reject_eq_some, Bool.not_eq_false', List.isEmpty_iff, decide_eq_true_eq] at hnameValid hdis hend
  obtain ⟨⟨⟨hlong, hmag⟩, hver⟩, hheaderLen⟩ := hshp
  obtain ⟨⟨rfl, htotalRange⟩, hrsv⟩ := htotalRange
  subst hend
  obtain ⟨rfl, hbody⟩ := length_of_takeBytes hname
  obtain rfl := length_of_takeMany hdescs
  set fields : ReleaseFields := ⟨sequence, name, descriptors⟩ with hfds
  have hrec : takeRecord ((headerFields fields bytes.length).map Prod.fst) (bytes.drop 8) =
      some ((headerFields fields bytes.length).map Prod.snd, bytes.drop 32) :=
    readHeader_iff.mpr ⟨hver, hheaderLen, htot, hseq, hnameLen, hcnt, hrsv⟩
  have hmag := take_of_slice hmag
  have hwh : bytes = assemble fields bytes.length ((bytes.drop keyIdOffset).take keyIdLen)
      ((bytes.drop signatureOffset).take signatureLen) := by
    have hbs := eq_of_takeMany (fun _ _ _ hread => takeDescriptor_eq hread) hdescs
    rw [append_nil] at hbs
    rw [hbs] at hbody
    have henv := eq_envelope hmag (eq_record_of_takeRecord hrec)
    rw [show 32 + 16 + 64 = headerLen from rfl, hbody] at henv
    exact henv
  obtain ⟨hkey, hsig⟩ := length_signed keyIdOffset hlong
  have hsum : bytes.length = sumLen fields :=
    (congrArg List.length hwh).trans (length_assemble hkey hsig)
  refine ⟨⟨hcts.1.1, hnameValid, ⟨fun hnil => ?_, hcts.2⟩, ⟨names, hnms, hdis⟩,
      hsum ▸ htotalRange⟩, readLe_lt (by decide) hseq, hlong, hsum,
    hwh.trans (congrArg (fun len => assemble fields len _ _) hsum)⟩
  exact hcts.1.2 (length_eq_zero_iff.mpr hnil)

theorem headerFields_lt (hval : Valid fields) (hrng : fields.InRange) :
    ∀ field ∈ headerFields fields (sumLen fields), field.2 < 256 ^ field.1 := by
  have hname := length_le_of_validName hval.releaseName
  obtain ⟨-, hcnt⟩ := hval.count
  have hlen := hval.len
  simp only [maxReleaseNameLen, maxDescriptors, maxReleaseLen] at hname hcnt hlen
  simp only [headerFields, forall_mem_cons]
  exact ⟨by decide, by decide, by omega, hrng, by omega, by omega, by decide, nofun⟩

theorem descriptor_lt (h : artifactNames descriptors = some names) :
    ∀ bytes ∈ descriptors, bytes.length < 256 ^ 2 := by
  induction descriptors generalizing names with
  | nil => exact nofun
  | cons bytes descriptors ih =>
    obtain ⟨descriptor, _, hdec, hoths, -⟩ := artifactNames_cons.mp h
    refine forall_mem_cons.mpr ⟨?_, ih hoths⟩
    obtain ⟨hval, -, -, -, hlen, -⟩ := Deployment.decode_spec hdec
    have hmax := hval.len
    simp only [maxDescriptorLen] at hmax
    omega

theorem take_drop_encodeSigned (fields : ReleaseFields) (hkey : keyId.length = keyIdLen)
    (hsig : signature.length = signatureLen) :
    (encodeSigned fields keyId signature).take keyIdOffset =
        magic ++ record (headerFields fields (sumLen fields)) ∧
      (encodeSigned fields keyId signature).drop headerLen = fields.releaseName ++
        fields.descriptors.flatMap descriptorBytes :=
  take_drop_signed (by rw [length_magic, length_header]; rfl) (by rw [hkey, hsig]; rfl)

theorem decode_encodeSigned (hval : Valid fields)
    (hrng : fields.InRange) (hkey : keyId.length = keyIdLen)
    (hsig : signature.length = signatureLen) : decode (encodeSigned fields keyId signature) =
      some (fields.envelope (encodeSigned fields keyId signature)) := by
  have hlen : (encodeSigned fields keyId signature).length = sumLen fields :=
    length_assemble hkey hsig
  have hdropBody := (take_drop_encodeSigned fields hkey hsig).2
  obtain ⟨hmag, hrec⟩ := read_envelope (encodeSigned fields keyId signature) rfl length_magic
    (length_header _ _) (headerFields_lt hval hrng)
  have hlong : headerLen ≤ (encodeSigned fields keyId signature).length := by
    rw [hlen, sumLen]
    omega
  obtain ⟨hver, hheaderLen, htot, hseq, hnameLen, hcnt, hrsv⟩ := readHeader_iff.mp hrec
  have hname := takeBytes_append fields.releaseName (fields.descriptors.flatMap descriptorBytes)
  rw [← hdropBody] at hname
  obtain ⟨_, hnms, hdis⟩ := hval.artifacts
  have hdescs := takeMany_append (fun bytes hmem rest =>
    takeDescriptor_append (descriptor_lt hnms bytes hmem) rest) []
  rw [append_nil] at hdescs
  simp only [decode, ↓read_bind_some, ↓Prod.exists]
  exact ⟨(), by simp [hlong, hmag, hver, hheaderLen], _, htot, (), by simpa [hlen, hrsv] using hval.len,
    _, hseq, _, hnameLen, _, hcnt, (), by simpa using ⟨⟨hval.sequence, hval.count.1⟩, hval.count.2⟩,
    _, _, hname, (), by simpa using hval.releaseName, _, _, hdescs, _, hnms, (), by simpa using hdis,
    (), rfl, rfl⟩

theorem canonicalFormat (crypto : Crypto) :
    CanonicalFormat encodedLen (encodeUnsigned crypto) (fun bytes => (decode bytes).map (·.fields))
      ReleaseFields.InRange keyIdOffset headerLen := by
  constructor
  · intro fields publicKey capacity len hrng hsize hcap
    obtain ⟨hval, rfl⟩ := encodedLen_eq_ok.mp hsize
    have hkey := length_keyId crypto publicKey
    refine ⟨_, bind_eq_ok.mpr ⟨_, hsize, ensure_bind_ok.mpr ⟨hcap, rfl⟩⟩,
      length_assemble hkey length_replicate, ?_⟩
    simp only [decode_encodeSigned hval hrng hkey length_replicate, map_some]
    rfl
  · intro bytes fields h
    obtain ⟨envelope, hdec, rfl⟩ := map_eq_some_iff.mp h
    obtain ⟨hval, hrng, hlong, hlen, hbs⟩ := decode_encodes hdec
    obtain ⟨hkey, hsig⟩ := length_signed keyIdOffset hlong
    refine ⟨hrng, encodedLen_eq_ok.mpr ⟨hval, hlen⟩, fun publicKey capacity hcap => ?_⟩
    refine ⟨_, bind_eq_ok.mpr ⟨_, encodedLen_eq_ok.mpr ⟨hval, rfl⟩,
      ensure_bind_ok.mpr ⟨hlen ▸ hcap, rfl⟩⟩, ?_⟩
    obtain ⟨htake, hdrop⟩ := take_drop_encodeSigned envelope.fields hkey hsig
    obtain ⟨htake', hdrop'⟩ := take_drop_encodeSigned envelope.fields
      (length_keyId crypto publicKey)
      (length_replicate (n := signatureLen) (a := (0 : UInt8)))
    exact ⟨htake'.trans (htake.symm.trans (congrArg (take _) hbs.symm)),
      hdrop'.trans (hdrop.symm.trans (congrArg (drop _) hbs.symm))⟩

end Release

/-! ### Signed formats -/

/-- Descriptors and releases are canonical: they are read back, they are accepted in one form only, and
they are determined by their fields, key and signature. -/
theorem signed_formats_are_canonical (crypto : Crypto) :
    (CanonicalFormat Deployment.encodedLen (Deployment.encodeUnsigned crypto)
        (fun bytes => (Deployment.decode bytes).map (·.fields)) DescriptorFields.InRange
        Deployment.keyIdOffset Deployment.headerLen ∧
      ∀ first second descriptor descriptor', Deployment.decode first = some descriptor →
        Deployment.decode second = some descriptor' → descriptor.fields = descriptor'.fields →
        (first.drop Deployment.keyIdOffset).take 80 = (second.drop Deployment.keyIdOffset).take 80 →
        first = second) ∧ (CanonicalFormat Release.encodedLen (Release.encodeUnsigned crypto)
        (fun bytes => (Release.decode bytes).map (·.fields)) ReleaseFields.InRange
        Release.keyIdOffset Release.headerLen ∧
      ∀ first second envelope envelope', Release.decode first = some envelope →
        Release.decode second = some envelope' → envelope.fields = envelope'.fields →
        (first.drop Release.keyIdOffset).take 80 = (second.drop Release.keyIdOffset).take 80 →
        first = second) := by
  refine ⟨⟨canonicalFormat crypto, ?_⟩, ⟨Release.canonicalFormat crypto, ?_⟩⟩
  · intro first second descriptor descriptor' hfst hsec hsame hsgn
    refine (canonicalFormat crypto).injective (by decide)
      (map_eq_some_iff.mpr ⟨descriptor, hfst, rfl⟩) ?_ hsgn
    exact map_eq_some_iff.mpr ⟨descriptor', hsec, hsame.symm⟩
  · intro first second envelope envelope' hfst hsec hsame hsgn
    refine (Release.canonicalFormat crypto).injective (by decide)
      (map_eq_some_iff.mpr ⟨envelope, hfst, rfl⟩) ?_ hsgn
    exact map_eq_some_iff.mpr ⟨envelope', hsec, hsame.symm⟩

end Charlotte.Launch
