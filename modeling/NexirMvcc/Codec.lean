import NexirMvcc.Types
import NexirMvcc.Foundation.ByteCodec

/- The record codec (`codec.rs`). A record starts with the codec version and its
   kind; byte strings carry their length in four bytes, integers are big-endian,
   and an optional field has a flag byte. The decoders are strict: they refuse
   every flag but the two defined ones, and every byte behind the record. In a
   committed record the timestamp stands right behind the key, so the records of one
   key sort by their timestamps.

   A decoder moves an offset through the buffer, `offset: &mut usize` of the
   source; `fail` is `return Err(CodecError::Decode(..))`. The three flag fields
   of the source are one definition with their texts and flag values, and so are
   the three integer decoders and the two headers. -/
namespace NexirMvcc
open ByteCodec

def codecVersion : Byte := 2
def recordCommitted : Byte := 1
def recordIntent : Byte := 2
def flagPresent : Byte := 1
def flagAbsent : Byte := 0
def mutationPut : Byte := 1
def mutationDelete : Byte := 2

abbrev Decode (α : Type) := Decoder CodecError α

def fail {α : Type} (msg : String) : Decode α := fun _ => .error (.decode msg)

/-! Integers. -/

def encodeU32 (v : Fin (2 ^ 32)) : List Byte := toBe 4 v.val
def encodeU64 (v : TxnId) : List Byte := toBe 8 v.val
def encodeU128 (v : Timestamp) : List Byte := toBe 16 v.val

/-- The big-endian integer of `n` bytes at the offset. -/
def decodeBe (n : Nat) (truncated : String) (buf : List Byte) : Decode (Fin (2 ^ (8 * n))) := do
  let offset ← get
  if buf.length < offset + n then fail truncated
  else do
    set (offset + n)
    pure ⟨fromBe ((buf.drop offset).take n), fromBe_take_lt _ n⟩

def decodeU32 (buf : List Byte) : Decode (Fin (2 ^ 32)) := decodeBe 4 "truncated u32" buf
def decodeU64 (buf : List Byte) : Decode TxnId := decodeBe 8 "truncated u64" buf
def decodeU128 (buf : List Byte) : Decode Timestamp := decodeBe 16 "truncated u128" buf

/-! Byte strings. -/

/-- Append the length and the bytes. -/
def encodeBytes (buf bytes : List Byte) : Except CodecError (List Byte) :=
  if h : bytes.length < 2 ^ 32 then .ok (buf ++ encodeU32 ⟨bytes.length, h⟩ ++ bytes)
  else .error (.encode "byte slice too long")

def decodeBytes (buf : List Byte) : Decode (List Byte) := do
  let len ← decodeU32 buf
  let offset ← get
  if buf.length < offset + len.val then fail "truncated byte slice"
  else do
    set (offset + len.val)
    pure ((buf.drop offset).take len.val)

/-! Parts of a record. -/

/-- The byte at the offset, after the check that there is one. -/
def decodeByte (missing : String) (buf : List Byte) : Decode Byte := do
  let offset ← get
  match buf[offset]? with
  | none => fail missing
  | some byte => do
    set (offset + 1)
    pure byte

/-- The codec version and the record type. -/
def decodeHeader (record : Byte) (kind : String) (buf : List Byte) : Decode Unit := do
  let version ← decodeByte "empty buffer" buf
  if version ≠ codecVersion then fail s!"unknown codec version {version}"
  else do
    let recordType ← decodeByte "missing record type" buf
    if recordType ≠ record then
      fail s!"expected {kind} record type {record}, got {recordType}"
    else pure ()

/-- A field behind a flag. -/
def decodeFlagged {α : Type} (field : String) (present absent : Byte) (buf : List Byte)
    (d : Decode α) : Decode (Option α) := do
  let flag ← decodeByte s!"missing {field}" buf
  if flag = present then do
    let a ← d
    pure (some a)
  else if flag = absent then pure none
  else fail s!"unknown {field} {flag}"

/-- The record, if the buffer ends here. -/
def decodeEnd {α : Type} (buf : List Byte) (a : α) : Decode α := do
  let offset ← get
  if offset ≠ buf.length then fail "trailing garbage" else pure a

/-! Records. -/

def encodeCommitted (version : CommittedVersion) : Except CodecError (List Byte) := do
  let buf ← encodeBytes [codecVersion, recordCommitted] version.key
  let buf := buf ++ encodeU128 version.commitTs
  match version.value with
  | some v => encodeBytes (buf ++ [flagPresent]) v
  | none => pure (buf ++ [flagAbsent])

def decodeCommitted (buf : List Byte) : Except CodecError CommittedVersion :=
  StateT.run' (do
    decodeHeader recordCommitted "committed" buf
    let key ← decodeBytes buf
    let commitTs ← decodeU128 buf
    let value ← decodeFlagged "value flag" flagPresent flagAbsent buf (decodeBytes buf)
    decodeEnd buf ⟨key, commitTs, value⟩) 0

def encodeIntent (intent : Intent) : Except CodecError (List Byte) := do
  let buf ← encodeBytes [codecVersion, recordIntent] intent.key
  let buf := buf ++ encodeU64 intent.txnId ++ encodeU128 intent.startTs
  let buf := match intent.minCommitTs with
    | some ts => buf ++ [flagPresent] ++ encodeU128 ts
    | none => buf ++ [flagAbsent]
  match intent.mutation with
  | .put v => encodeBytes (buf ++ [mutationPut]) v
  | .delete => pure (buf ++ [mutationDelete])

def decodeIntent (buf : List Byte) : Except CodecError Intent :=
  StateT.run' (do
    decodeHeader recordIntent "intent" buf
    let key ← decodeBytes buf
    let txnId ← decodeU64 buf
    let startTs ← decodeU128 buf
    let minCommitTs ← decodeFlagged "min_commit_ts flag" flagPresent flagAbsent buf (decodeU128 buf)
    let mutation ← decodeFlagged "mutation type" mutationPut mutationDelete buf (decodeBytes buf)
    decodeEnd buf ⟨key, txnId, startTs, Mutation.ofValue mutation, minCommitTs⟩) 0

/-! What each decoder reads. `Short`, `lenBytes` and `optionBytes` say which byte
strings have a length and what the encoders append. -/

section Fields
variable {α : Type} {buf : List Byte}

/-- A length of at most `u32::MAX`. -/
def Short (bytes : List Byte) : Prop := bytes.length < 2 ^ 32

/-- The length and the bytes. -/
def lenBytes (bytes : List Byte) : List Byte := toBe 4 bytes.length ++ bytes

/-- A flag and the field behind it. -/
def optionBytes (present absent : Byte) (enc : α → List Byte) : Option α → List Byte
  | some a => present :: enc a
  | none => [absent]

@[simp] theorem fail_run {msg : String} {off : Nat} :
    (fail msg : Decode α).run off = .error (.decode msg) := rfl

/-- The check that `n` bytes are left, then the move behind them. -/
theorem advance_run {n off off' : Nat} {truncated : String} {x : Nat → α} {a : α} :
    (do
      let offset ← get
      if buf.length < offset + n then fail truncated
      else do
        set (offset + n)
        pure (x offset) : Decode α).run off = .ok (a, off') ↔
      off + n ≤ buf.length ∧ x off = a ∧ off' = off + n := by
  show (if buf.length < off + n then fail truncated else (do
    set (off + n)
    pure (x off) : Decode α)).run off = _ ↔ _
  split
  case isTrue h =>
    rw [fail_run]
    exact iff_of_false (by simp) (by omega)
  case isFalse h =>
    show Except.ok (x off, off + n) = Except.ok (a, off') ↔ _
    simp only [Except.ok.injEq, Prod.mk.injEq]
    constructor
    · rintro ⟨hx, rfl⟩
      exact ⟨by omega, hx, rfl⟩
    · rintro ⟨-, hx, rfl⟩
      exact ⟨hx, rfl⟩

theorem decodeByte_reads (missing : String) :
    Reads buf (decodeByte missing buf) (fun b => [b]) fun _ => True := by
  intro off b off'
  rw [at_singleton]
  show (match buf[off]? with
    | none => fail missing
    | some byte => (do set (off + 1); pure byte : Decode Byte)).run off = _ ↔ _
  cases buf[off]? with
  | none => simp
  | some byte =>
    show Except.ok (byte, off + 1) = Except.ok (b, off') ↔ _
    simp [eq_comm]

theorem decodeBe_reads {n : Nat} (hn : 0 < n) (truncated : String) :
    Reads buf (decodeBe n truncated buf) (fun v => toBe n v.val) fun _ => True := by
  intro off v off'
  unfold decodeBe
  rw [advance_run, length_toBe]
  constructor
  · rintro ⟨hle, rfl, rfl⟩
    have hbe := toBe_fromBe ((buf.drop off).take n)
    rw [length_cut hle] at hbe
    refine ⟨trivial, ?_, rfl, trivial⟩
    -- the value is read from `n` bytes, so its `n` bytes are those
    show At buf off (toBe n (fromBe _))
    rw [hbe]
    exact List.take_prefix _ _
  · rintro ⟨-, hat, rfl, -⟩
    have hle := hat.le (toBe_ne_nil hn)
    rw [at_iff_take] at hat
    rw [length_toBe] at hat hle
    refine ⟨hle, Fin.ext ?_, rfl⟩
    show fromBe ((buf.drop off).take n) = v.val
    rw [hat, fromBe_toBe v.isLt]

theorem decodeU32_reads : Reads buf (decodeU32 buf) encodeU32 fun _ => True :=
  decodeBe_reads (n := 4) (by decide) _

theorem decodeU64_reads : Reads buf (decodeU64 buf) encodeU64 fun _ => True :=
  decodeBe_reads (n := 8) (by decide) _

theorem decodeU128_reads : Reads buf (decodeU128 buf) encodeU128 fun _ => True :=
  decodeBe_reads (n := 16) (by decide) _

theorem decodeBytes_reads : Reads buf (decodeBytes buf) lenBytes Short := by
  intro off bs off'
  have hu32 : Reads buf (decodeU32 buf) (fun v => toBe 4 v.val) fun _ => True := decodeU32_reads
  unfold decodeBytes
  rw [bind_run_ok]
  unfold lenBytes
  rw [at_append, List.length_append, length_toBe]
  constructor
  · rintro ⟨len, off₁, hd, hbody⟩
    obtain ⟨-, hat, rfl, -⟩ := (hu32 _ _ _).mp hd
    rw [length_toBe] at hbody
    obtain ⟨hle, rfl, rfl⟩ := advance_run.mp hbody
    dsimp only
    rw [Short, length_cut hle]
    exact ⟨len.isLt, ⟨hat, List.take_prefix _ _⟩, Nat.add_assoc .., trivial⟩
  · rintro ⟨hshort, ⟨hlen, hat⟩, rfl, -⟩
    refine ⟨⟨bs.length, hshort⟩, off + 4, (hu32 _ _ _).mpr ⟨trivial, hlen, ?_, trivial⟩,
      advance_run.mpr ⟨?_, at_iff_take.mp hat, (Nat.add_assoc ..).symm⟩⟩
    · rw [length_toBe]
    -- an empty byte string stands anywhere; the length in front bounds the offset
    · have hpos := hlen.le (toBe_ne_nil (by decide))
      have hle := List.IsPrefix.length_le hat
      rw [length_toBe] at hpos
      rw [List.length_drop] at hle
      dsimp only
      omega

theorem decodeFlagged_reads {present absent : Byte} {d : Decode α} {enc : α → List Byte}
    {P : α → Prop} (hne : present ≠ absent) (field : String) (hd : Reads buf d enc P) :
    Reads buf (decodeFlagged field present absent buf d) (optionBytes present absent enc)
      fun o => ∀ a ∈ o, P a := by
  intro off o off'
  unfold decodeFlagged
  rw [bind_run_ok]
  constructor
  · rintro ⟨flag, off₁, hflag, hbody⟩
    obtain ⟨-, hat, rfl, -⟩ := (decodeByte_reads _ _ _ _).mp hflag
    split at hbody
    case isTrue h =>
      subst h
      obtain ⟨a, off₂, ha, hsome⟩ := bind_run_ok.mp hbody
      obtain ⟨hP, hat', rfl, -⟩ := (hd _ _ _).mp ha
      cases hsome
      refine ⟨by rintro _ ⟨⟩; exact hP, at_cons.mpr ⟨hat, hat'⟩, ?_, trivial⟩
      simp only [optionBytes, List.length_cons, List.length_nil]
      omega
    case isFalse h =>
      split at hbody
      case isTrue h' =>
        subst h'
        cases hbody
        exact ⟨by rintro _ ⟨⟩, hat, rfl, trivial⟩
      case isFalse => cases hbody
  · rintro ⟨hP, hat, rfl, -⟩
    cases o with
    | some a =>
      obtain ⟨hflag, hat'⟩ := at_cons.mp hat
      refine ⟨present, off + 1, (decodeByte_reads _ _ _ _).mpr ⟨trivial, hflag, rfl, trivial⟩, ?_⟩
      rw [if_pos rfl, bind_run_ok]
      refine ⟨a, _, (hd _ _ _).mpr ⟨hP a rfl, hat', rfl, trivial⟩, ?_⟩
      show Except.ok (some a, _) = Except.ok (some a, _)
      simp only [optionBytes, List.length_cons]
      rw [Nat.add_assoc, Nat.add_comm 1]
    | none =>
      refine ⟨absent, off + 1, (decodeByte_reads _ _ _ _).mpr ⟨trivial, hat, rfl, trivial⟩, ?_⟩
      rw [if_neg hne.symm, if_pos rfl]
      rfl

/-- A byte that must be the expected one, then the rest. -/
theorem expected_run {missing : String} {msg : Byte → String} {expected : Byte} {d : Decode α}
    {off : Nat} {x : α × Nat} :
    (do
      let byte ← decodeByte missing buf
      if byte ≠ expected then fail (msg byte) else d : Decode α).run off = .ok x ↔
      At buf off [expected] ∧ d.run (off + 1) = .ok x := by
  rw [bind_run_ok]
  constructor
  · rintro ⟨byte, off₁, hbyte, hrest⟩
    obtain ⟨-, hat, rfl, -⟩ := (decodeByte_reads _ _ _ _).mp hbyte
    split at hrest
    case isTrue => cases hrest
    case isFalse h =>
      rw [not_not.mp h] at hat
      exact ⟨hat, hrest⟩
  · rintro ⟨hat, hrest⟩
    refine ⟨expected, off + 1, (decodeByte_reads _ _ _ _).mpr ⟨trivial, hat, rfl, trivial⟩, ?_⟩
    rwa [if_neg (not_not.mpr rfl)]

theorem decodeHeader_reads (record : Byte) (kind : String) :
    Reads buf (decodeHeader record kind buf) (fun _ => [codecVersion, record]) fun _ => True := by
  intro off u off'
  unfold decodeHeader
  rw [expected_run, expected_run]
  have hbytes : At buf off [codecVersion, record] ↔
      At buf off [codecVersion] ∧ At buf (off + 1) [record] := at_cons
  show _ ∧ _ ∧ Except.ok ((), off + 1 + 1) = Except.ok ((), off') ↔ _
  simp [hbytes, and_assoc, eq_comm]

theorem decodeEnd_reads (buf : List Byte) (a : α) :
    ReadsTo (· = buf.length) buf (decodeEnd buf a) (fun _ => []) (· = a) := by
  intro off x off'
  show (if off ≠ buf.length then fail "trailing garbage" else (pure a : Decode α)).run off = _ ↔ _
  split
  case isTrue h =>
    rw [fail_run]
    refine iff_of_false (by simp) ?_
    rintro ⟨-, -, rfl, hend⟩
    exact h hend
  case isFalse h =>
    show Except.ok (a, off) = Except.ok (x, off') ↔ _
    rw [not_not] at h
    constructor
    · rintro ⟨⟩
      exact ⟨rfl, at_nil, rfl, h⟩
    · rintro ⟨rfl, -, rfl, -⟩
      rfl

end Fields

/-! Whole records: both directions have the same right side. -/

def CommittedVersion.Encodable (version : CommittedVersion) : Prop :=
  Short version.key ∧ ∀ v ∈ version.value, Short v

def committedBytes (version : CommittedVersion) : List Byte :=
  [codecVersion, recordCommitted] ++ (lenBytes version.key ++ (encodeU128 version.commitTs ++
    (optionBytes flagPresent flagAbsent lenBytes version.value ++ [])))

/-- The fields of a committed record, whatever stands behind it. -/
theorem committed_reads {E : Nat → Prop} {buf : List Byte}
    {fin : CommittedVersion → Decode CommittedVersion}
    (hfin : ∀ version, ReadsTo E buf (fin version) (fun _ => []) (· = version)) :
    ReadsTo E buf (do
      decodeHeader recordCommitted "committed" buf
      let key ← decodeBytes buf
      let commitTs ← decodeU128 buf
      let value ← decodeFlagged "value flag" flagPresent flagAbsent buf (decodeBytes buf)
      fin ⟨key, commitTs, value⟩) committedBytes CommittedVersion.Encodable := by
  -- from the last field to the first
  have hvalue := fun key commitTs => ReadsTo.bind CommittedVersion.value
    (decodeFlagged_reads (show flagPresent ≠ flagAbsent by decide) "value flag" decodeBytes_reads)
    (fun _ _ hc => congrArg CommittedVersion.value hc)
    fun value => hfin ⟨key, commitTs, value⟩
  have hcommitTs := fun key => ReadsTo.bind CommittedVersion.commitTs decodeU128_reads
    (fun _ _ hc => congrArg CommittedVersion.commitTs hc.2) (hvalue key)
  have hkey := ReadsTo.bind CommittedVersion.key decodeBytes_reads
    (fun _ _ hc => congrArg CommittedVersion.key hc.2.2) hcommitTs
  have hheader := ReadsTo.bind (fun _ => ()) (decodeHeader_reads recordCommitted "committed")
    (fun _ _ _ => rfl) fun _ => hkey
  refine hheader.congr ?_
  simp [CommittedVersion.Encodable]

theorem decodeCommitted_reads (buf : List Byte) (version : CommittedVersion) :
    decodeCommitted buf = .ok version ↔ version.Encodable ∧ committedBytes version = buf :=
  (committed_reads (decodeEnd_reads buf)).run_zero

/-- No committed record is a proper prefix of another one. -/
theorem committedBytes_isPrefix {version version' : CommittedVersion} (h : version.Encodable)
    (h' : version'.Encodable) (hp : committedBytes version <+: committedBytes version') :
    version = version' :=
  eq_of_isPrefix (fun buf => committed_reads (pure_reads buf)) h h' hp

def Intent.Encodable (intent : Intent) : Prop :=
  Short intent.key ∧ ∀ v ∈ intent.mutation.value, Short v

def intentBytes (intent : Intent) : List Byte :=
  [codecVersion, recordIntent] ++ (lenBytes intent.key ++ (encodeU64 intent.txnId ++
    (encodeU128 intent.startTs ++
    (optionBytes flagPresent flagAbsent encodeU128 intent.minCommitTs ++
    (optionBytes mutationPut mutationDelete lenBytes intent.mutation.value ++ [])))))

/-- The fields of an intent record, whatever stands behind it. -/
theorem intent_reads {E : Nat → Prop} {buf : List Byte} {fin : Intent → Decode Intent}
    (hfin : ∀ intent, ReadsTo E buf (fin intent) (fun _ => []) (· = intent)) :
    ReadsTo E buf (do
      decodeHeader recordIntent "intent" buf
      let key ← decodeBytes buf
      let txnId ← decodeU64 buf
      let startTs ← decodeU128 buf
      let minCommitTs ← decodeFlagged "min_commit_ts flag" flagPresent flagAbsent buf (decodeU128 buf)
      let mutation ← decodeFlagged "mutation type" mutationPut mutationDelete buf (decodeBytes buf)
      fin ⟨key, txnId, startTs, Mutation.ofValue mutation, minCommitTs⟩) intentBytes
      Intent.Encodable := by
  have hmutation := fun key txnId startTs minCommitTs =>
    ReadsTo.bind (fun i : Intent => i.mutation.value)
      (decodeFlagged_reads (show mutationPut ≠ mutationDelete by decide) "mutation type"
        decodeBytes_reads)
      (fun value _ hi => (congrArg (fun i : Intent => i.mutation.value) hi).trans
        (Mutation.value_ofValue value))
      fun mutation => hfin ⟨key, txnId, startTs, Mutation.ofValue mutation, minCommitTs⟩
  have hminCommitTs := fun key txnId startTs => ReadsTo.bind Intent.minCommitTs
    (decodeFlagged_reads (show flagPresent ≠ flagAbsent by decide) "min_commit_ts flag"
      decodeU128_reads)
    (fun _ _ hi => congrArg Intent.minCommitTs hi.2) (hmutation key txnId startTs)
  have hstartTs := fun key txnId => ReadsTo.bind Intent.startTs decodeU128_reads
    (fun _ _ hi => congrArg Intent.startTs hi.2.2) (hminCommitTs key txnId)
  have htxnId := fun key => ReadsTo.bind Intent.txnId decodeU64_reads
    (fun _ _ hi => congrArg Intent.txnId hi.2.2.2) (hstartTs key)
  have hkey := ReadsTo.bind Intent.key decodeBytes_reads
    (fun _ _ hi => congrArg Intent.key hi.2.2.2.2) htxnId
  have hheader := ReadsTo.bind (fun _ => ()) (decodeHeader_reads recordIntent "intent")
    (fun _ _ _ => rfl) fun _ => hkey
  refine hheader.congr ?_
  simp [Intent.Encodable, Mutation.ofValue_value]

theorem decodeIntent_reads (buf : List Byte) (intent : Intent) :
    decodeIntent buf = .ok intent ↔ intent.Encodable ∧ intentBytes intent = buf :=
  (intent_reads (decodeEnd_reads buf)).run_zero

/-- No intent record is a proper prefix of another one. -/
theorem intentBytes_isPrefix {intent intent' : Intent} (h : intent.Encodable)
    (h' : intent'.Encodable) (hp : intentBytes intent <+: intentBytes intent') : intent = intent' :=
  eq_of_isPrefix (fun buf => intent_reads (pure_reads buf)) h h' hp

theorem encodeBytes_ok {buf bytes out : List Byte} :
    encodeBytes buf bytes = .ok out ↔ Short bytes ∧ buf ++ lenBytes bytes = out := by
  unfold encodeBytes Short lenBytes encodeU32
  split
  case isTrue h =>
    rw [Except.ok.injEq, List.append_assoc]
    exact ⟨fun hout => ⟨h, hout⟩, fun hout => hout.2⟩
  case isFalse h => exact iff_of_false (by simp) fun hout => h hout.1

/-- A field behind a flag, appended. -/
theorem encodeFlagged_ok {buf out : List Byte} {present absent : Byte} {o : Option (List Byte)} :
    (match o with
      | some v => encodeBytes (buf ++ [present]) v
      | none => pure (buf ++ [absent])) = .ok out ↔
      (∀ v ∈ o, Short v) ∧ buf ++ optionBytes present absent lenBytes o = out := by
  cases o with
  | none =>
    show Except.ok _ = Except.ok _ ↔ _
    simp [optionBytes]
  | some v =>
    show encodeBytes (buf ++ [present]) v = .ok out ↔ _
    rw [encodeBytes_ok]
    simp [optionBytes]

theorem encodeCommitted_ok (version : CommittedVersion) (buf : List Byte) :
    encodeCommitted version = .ok buf ↔ version.Encodable ∧ committedBytes version = buf := by
  unfold encodeCommitted
  rw [except_bind_ok]
  constructor
  · rintro ⟨pre, hkey, hvalue⟩
    obtain ⟨hshort, rfl⟩ := encodeBytes_ok.mp hkey
    obtain ⟨hshort', rfl⟩ := encodeFlagged_ok.mp hvalue
    exact ⟨⟨hshort, hshort'⟩, by simp [committedBytes]⟩
  · rintro ⟨⟨hshort, hshort'⟩, rfl⟩
    refine ⟨_, encodeBytes_ok.mpr ⟨hshort, rfl⟩, encodeFlagged_ok.mpr ⟨hshort', ?_⟩⟩
    simp [committedBytes]

theorem encodeMutation_ok {buf out : List Byte} {m : Mutation} :
    (match m with
      | .put v => encodeBytes (buf ++ [mutationPut]) v
      | .delete => pure (buf ++ [mutationDelete])) = .ok out ↔
      (∀ v ∈ m.value, Short v) ∧
        buf ++ optionBytes mutationPut mutationDelete lenBytes m.value = out := by
  cases m with
  | put v => exact encodeFlagged_ok (o := some v)
  | delete => exact encodeFlagged_ok (o := none)

theorem intentBytes_eq (intent : Intent) :
    intentBytes intent =
      (match intent.minCommitTs with
        | some ts => [codecVersion, recordIntent] ++ lenBytes intent.key ++ encodeU64 intent.txnId ++
          encodeU128 intent.startTs ++ [flagPresent] ++ encodeU128 ts
        | none => [codecVersion, recordIntent] ++ lenBytes intent.key ++ encodeU64 intent.txnId ++
          encodeU128 intent.startTs ++ [flagAbsent]) ++
      optionBytes mutationPut mutationDelete lenBytes intent.mutation.value := by
  unfold intentBytes
  cases intent.minCommitTs with
  | none => simp [optionBytes]
  | some ts => simp [optionBytes]

theorem encodeIntent_ok (intent : Intent) (buf : List Byte) :
    encodeIntent intent = .ok buf ↔ intent.Encodable ∧ intentBytes intent = buf := by
  unfold encodeIntent
  rw [except_bind_ok, intentBytes_eq]
  constructor
  · rintro ⟨pre, hkey, hmutation⟩
    obtain ⟨hshort, rfl⟩ := encodeBytes_ok.mp hkey
    obtain ⟨hshort', rfl⟩ := encodeMutation_ok.mp hmutation
    exact ⟨⟨hshort, hshort'⟩, rfl⟩
  · rintro ⟨⟨hshort, hshort'⟩, rfl⟩
    exact ⟨_, encodeBytes_ok.mpr ⟨hshort, rfl⟩, encodeMutation_ok.mpr ⟨hshort', rfl⟩⟩

/-- Decoding and encoding undo each other, for both kinds of records. -/
theorem codec_bijection :
    (∀ buf version, decodeCommitted buf = .ok version ↔ encodeCommitted version = .ok buf) ∧
    (∀ buf intent, decodeIntent buf = .ok intent ↔ encodeIntent intent = .ok buf) ∧
    (∀ version : CommittedVersion, (∃ buf, encodeCommitted version = .ok buf) ↔
      version.key.length < 2 ^ 32 ∧ ∀ v ∈ version.value, v.length < 2 ^ 32) ∧
    (∀ intent : Intent, (∃ buf, encodeIntent intent = .ok buf) ↔
      intent.key.length < 2 ^ 32 ∧ ∀ v ∈ intent.mutation.value, v.length < 2 ^ 32) ∧
    ∀ buf version intent,
      ¬ (decodeCommitted buf = .ok version ∧ decodeIntent buf = .ok intent) := by
  refine ⟨?_, ?_, ?_, ?_, ?_⟩
  · intro buf version
    rw [decodeCommitted_reads, encodeCommitted_ok]
  · intro buf intent
    rw [decodeIntent_reads, encodeIntent_ok]
  · intro version
    constructor
    · rintro ⟨buf, h⟩
      exact ((encodeCommitted_ok _ _).mp h).1
    · intro h
      exact ⟨_, (encodeCommitted_ok _ _).mpr ⟨h, rfl⟩⟩
  · intro intent
    constructor
    · rintro ⟨buf, h⟩
      exact ((encodeIntent_ok _ _).mp h).1
    · intro h
      exact ⟨_, (encodeIntent_ok _ _).mpr ⟨h, rfl⟩⟩
  · rintro buf version intent ⟨hversion, hintent⟩
    obtain ⟨-, rfl⟩ := (decodeCommitted_reads _ _).mp hversion
    obtain ⟨-, h⟩ := (decodeIntent_reads _ _).mp hintent
    -- the record types differ
    have hrecord := (List.cons_eq_cons.mp (List.cons_eq_cons.mp h).2).1
    exact absurd hrecord (by decide)

/-! Torn and padded records. -/

section Torn
variable {α : Type} {enc : α → List Byte} {P : α → Prop}
  {decode : List Byte → Except CodecError α} {a : α}

/-- A strict decoder of encodings none of which is a proper prefix of another refuses
every proper prefix of an encoding and whatever is longer than it. -/
theorem rejects_torn_and_padded (hdecode : ∀ buf a, decode buf = .ok a ↔ P a ∧ enc a = buf)
    (hfree : ∀ a a', P a → P a' → enc a <+: enc a' → a = a') (ha : P a) :
    (∀ torn, torn <+: enc a → torn ≠ enc a → ∃ e, decode torn = .error e) ∧
    ∀ pad, pad ≠ [] → ∃ e, decode (enc a ++ pad) = .error e := by
  have hrefuse : ∀ buf, (∀ a', ¬ (P a' ∧ enc a' = buf)) → ∃ e, decode buf = .error e := by
    intro buf hnone
    cases h : decode buf with
    | error e => exact ⟨e, rfl⟩
    | ok a' => exact absurd ((hdecode buf a').mp h) (hnone a')
  constructor
  · intro torn hp hne
    refine hrefuse torn ?_
    rintro a' ⟨ha', rfl⟩
    exact hne (by rw [hfree a' a ha' ha hp])
  · intro pad hne
    refine hrefuse _ ?_
    rintro a' ⟨ha', he⟩
    have haa' := hfree a a' ha ha' (he ▸ List.prefix_append _ _)
    rw [haa', List.self_eq_append_right] at he
    exact hne he

end Torn

/-- Truncated and extended records are refused, for both kinds, and no record is a
proper prefix of another of its kind. -/
theorem torn_and_padded_refused :
    (∀ version buf, encodeCommitted version = .ok buf →
      (∀ torn, torn <+: buf → torn ≠ buf → ∃ e, decodeCommitted torn = .error e) ∧
      ∀ pad, pad ≠ [] → ∃ e, decodeCommitted (buf ++ pad) = .error e) ∧
    (∀ intent buf, encodeIntent intent = .ok buf →
      (∀ torn, torn <+: buf → torn ≠ buf → ∃ e, decodeIntent torn = .error e) ∧
      ∀ pad, pad ≠ [] → ∃ e, decodeIntent (buf ++ pad) = .error e) ∧
    (∀ version version' buf buf', encodeCommitted version = .ok buf →
      encodeCommitted version' = .ok buf' → buf <+: buf' → buf = buf') ∧
    ∀ intent intent' buf buf', encodeIntent intent = .ok buf →
      encodeIntent intent' = .ok buf' → buf <+: buf' → buf = buf' := by
  refine ⟨?_, ?_, ?_, ?_⟩
  · intro version buf h
    obtain ⟨hv, rfl⟩ := (encodeCommitted_ok version buf).mp h
    exact rejects_torn_and_padded decodeCommitted_reads (fun _ _ => committedBytes_isPrefix) hv
  · intro intent buf h
    obtain ⟨hi, rfl⟩ := (encodeIntent_ok intent buf).mp h
    exact rejects_torn_and_padded decodeIntent_reads (fun _ _ => intentBytes_isPrefix) hi
  · intro version version' buf buf' h h' hp
    obtain ⟨hv, rfl⟩ := (encodeCommitted_ok version buf).mp h
    obtain ⟨hv', rfl⟩ := (encodeCommitted_ok version' buf').mp h'
    rw [committedBytes_isPrefix hv hv' hp]
  · intro intent intent' buf buf' h h' hp
    obtain ⟨hi, rfl⟩ := (encodeIntent_ok intent buf).mp h
    obtain ⟨hi', rfl⟩ := (encodeIntent_ok intent' buf').mp h'
    rw [intentBytes_isPrefix hi hi' hp]

/-- A record cut behind its value flag, and one with a byte too many. -/
theorem torn_and_padded_refused_short_value :
    let buf : List Byte := [2, 1] ++ [0, 0, 0, 1, 9] ++ encodeU128 7 ++ [1] ++ [0, 0, 0, 1, 8]
    encodeCommitted ⟨[9], 7, some [8]⟩ = .ok buf ∧
    (∃ e, decodeCommitted (buf.take 24) = .error e) ∧ ∃ e, decodeCommitted (buf ++ [0]) = .error e := by
  intro buf
  have hbuf : encodeCommitted ⟨[9], 7, some [8]⟩ = .ok buf := by decide +kernel
  have htorn : buf.take 24 ≠ buf := by decide +kernel
  clear_value buf
  have hrefused := torn_and_padded_refused.1 _ _ hbuf
  exact ⟨hbuf, hrefused.1 _ (List.take_prefix 24 buf) htorn, hrefused.2 [0] (by decide)⟩

/-! Order of records. -/

theorem encodeU128_lt_encodeU128 {t t' : Timestamp} (h : t < t') : encodeU128 t < encodeU128 t' :=
  toBe_lt_toBe h t'.isLt

/-- The records of one key sort by their commit timestamps: up to the timestamp they
agree, and it decides before the values come. -/
theorem records_sort_by_commitTs {key : Key} {t₁ t₂ : Timestamp} {x₁ x₂ : Option Value}
    {buf₁ buf₂ : List Byte} (h₁ : encodeCommitted ⟨key, t₁, x₁⟩ = .ok buf₁)
    (h₂ : encodeCommitted ⟨key, t₂, x₂⟩ = .ok buf₂) (h : t₁ < t₂) : buf₁ < buf₂ := by
  obtain ⟨-, rfl⟩ := (encodeCommitted_ok _ _).mp h₁
  obtain ⟨-, rfl⟩ := (encodeCommitted_ok _ _).mp h₂
  have hlen : (encodeU128 t₁).length = (encodeU128 t₂).length := by
    rw [encodeU128, encodeU128, length_toBe, length_toBe]
  unfold committedBytes
  apply List.append_left_lt
  apply List.append_left_lt
  exact KeyOrder.append_lt_append hlen (encodeU128_lt_encodeU128 h) _ _

/-- A carry into the ninth byte, and a value against a tombstone. -/
theorem records_sort_by_commitTs_carry :
    ∃ buf₁ buf₂, encodeCommitted ⟨[9], 2 ^ 64 - 1, some [8, 8]⟩ = .ok buf₁ ∧
      encodeCommitted ⟨[9], 2 ^ 64, none⟩ = .ok buf₂ ∧ buf₁ < buf₂ := by
  have h₁ : encodeCommitted ⟨[9], 2 ^ 64 - 1, some [8, 8]⟩ = .ok _ := rfl
  have h₂ : encodeCommitted ⟨[9], 2 ^ 64, none⟩ = .ok _ := rfl
  exact ⟨_, _, h₁, h₂, records_sort_by_commitTs h₁ h₂ (by decide)⟩

end NexirMvcc
