import NexirMvcc.Codec

/- The decoders on a machine with `w`-bit `usize`, as a release build runs them:
   additions wrap, and an index or a slice outside the buffer panics (`trap`). The
   definitions here are those of `codec.rs` with every index and every slice
   checked; `Codec` has the same decoders with offsets that never wrap.

   A length is read from the buffer, so `offset + len` in `decode_bytes` can be
   anything up to the offset plus `u32::MAX`. Where `usize` has 64 bits the sum
   fits; where it has 32 bits it may wrap to something below the offset, which the
   check in front of the slice accepts. `decoders_total_iff` says for which buffers
   this happens: those that announce a byte string that would end past `u32::MAX`,
   in a place the decoder comes to. From all other buffers the decoders return what
   `Codec` says. -/
namespace NexirMvcc
open ByteCodec

namespace Machine

/-- A decoder that may panic. -/
abbrev Decode (α : Type) := Decoder (Fault CodecError) α

section Decoders
variable {α : Type} (w : Nat) (buf : List Byte)

/-- `a + b` in `usize`. -/
def wrappingAdd (a b : Nat) : Nat := (a + b) % 2 ^ w

def fail (msg : String) : Decode α := fun _ => .error (.error (.decode msg))

def trap : Decode α := fun _ => .error .trap

/-- `buf[i]`. -/
def index (i : Nat) : Decode Byte :=
  match buf[i]? with
  | some byte => pure byte
  | none => trap

/-- `buf[a..b]`. -/
def slice (a b : Nat) : Decode (List Byte) :=
  if a ≤ b ∧ b ≤ buf.length then pure ((buf.drop a).take (b - a)) else trap

/-- `decode_u32` and `decode_u64`: the bytes are taken one by one. -/
def decodeIndexed (n : Nat) (truncated : String) : Decode (Fin (2 ^ (8 * n))) := do
  let offset ← get
  if buf.length < wrappingAdd w offset n then fail truncated
  else do
    let bytes ← (List.range n).mapM fun i => index buf (wrappingAdd w offset i)
    set (wrappingAdd w offset n)
    pure (Fin.ofNat _ (fromBe bytes))

def decodeU32 : Decode (Fin (2 ^ 32)) := decodeIndexed w buf 4 "truncated u32"
def decodeU64 : Decode TxnId := decodeIndexed w buf 8 "truncated u64"

/-- `decode_u128`: the bytes are a slice, converted to an array of 16. -/
def decodeU128 : Decode Timestamp := do
  let offset ← get
  if buf.length < wrappingAdd w offset 16 then fail "truncated u128"
  else do
    let bytes ← slice buf offset (wrappingAdd w offset 16)
    if bytes.length ≠ 16 then fail "truncated u128"
    else do
      set (wrappingAdd w offset 16)
      pure (Fin.ofNat _ (fromBe bytes))

def decodeBytes : Decode (List Byte) := do
  let len ← decodeU32 w buf
  let offset ← get
  if buf.length < wrappingAdd w offset len.val then fail "truncated byte slice"
  else do
    let bytes ← slice buf offset (wrappingAdd w offset len.val)
    set (wrappingAdd w offset len.val)
    pure bytes

/-- The byte at the offset, after the check that there is one (`is_empty` for the
first byte). -/
def decodeByte (missing : String) : Decode Byte := do
  let offset ← get
  if buf.length < wrappingAdd w offset 1 then fail missing
  else do
    let byte ← index buf offset
    set (wrappingAdd w offset 1)
    pure byte

def decodeHeader (record : Byte) (kind : String) : Decode Unit := do
  let version ← decodeByte w buf "empty buffer"
  if version ≠ codecVersion then fail s!"unknown codec version {version}"
  else do
    let recordType ← decodeByte w buf "missing record type"
    if recordType ≠ record then fail s!"expected {kind} record type {record}, got {recordType}"
    else pure ()

def decodeFlagged (field : String) (present absent : Byte) (d : Decode α) : Decode (Option α) := do
  let flag ← decodeByte w buf s!"missing {field}"
  if flag = present then do
    let a ← d
    pure (some a)
  else if flag = absent then pure none
  else fail s!"unknown {field} {flag}"

def decodeEnd (a : α) : Decode α := do
  let offset ← get
  if offset ≠ buf.length then fail "trailing garbage" else pure a

def decodeCommitted : Except (Fault CodecError) CommittedVersion :=
  StateT.run' (do
    decodeHeader w buf recordCommitted "committed"
    let key ← decodeBytes w buf
    let commitTs ← decodeU128 w buf
    let value ← decodeFlagged w buf "value flag" flagPresent flagAbsent (decodeBytes w buf)
    decodeEnd buf ⟨key, commitTs, value⟩) 0

def decodeIntent : Except (Fault CodecError) Intent :=
  StateT.run' (do
    decodeHeader w buf recordIntent "intent"
    let key ← decodeBytes w buf
    let txnId ← decodeU64 w buf
    let startTs ← decodeU128 w buf
    let minCommitTs ← decodeFlagged w buf "min_commit_ts flag" flagPresent flagAbsent
      (decodeU128 w buf)
    let mutation ← decodeFlagged w buf "mutation type" mutationPut mutationDelete
      (decodeBytes w buf)
    decodeEnd buf ⟨key, txnId, startTs, Mutation.ofValue mutation, minCommitTs⟩) 0

end Decoders

/-! Each decoder against the one that never wraps. -/

section Follow
variable {α : Type} {w : Nat} {buf : List Byte}

theorem wrappingAdd_of_lt {a b : Nat} (h : a + b < 2 ^ w) : wrappingAdd w a b = a + b :=
  Nat.mod_eq_of_lt h

/-- Past the end of `usize` a sum of two of its values is below both. -/
theorem wrappingAdd_of_le {a b : Nat} (ha : a < 2 ^ w) (hb : b < 2 ^ w) (h : 2 ^ w ≤ a + b) :
    wrappingAdd w a b < a := by
  unfold wrappingAdd
  rw [Nat.mod_eq_sub_mod h, Nat.mod_eq_of_lt (by omega)]
  omega

theorem slice_run {a b off : Nat} (hab : a ≤ b) (hb : b ≤ buf.length) :
    (slice buf a b).run off = .ok ((buf.drop a).take (b - a), off) := by
  unfold slice
  rw [if_pos ⟨hab, hb⟩]
  rfl

theorem index_run {i off : Nat} {byte : Byte} (h : buf[i]? = some byte) :
    (index buf i).run off = .ok (byte, off) := by
  unfold index
  rw [h]
  rfl

theorem indices_run {n off s : Nat} (hw : off + n < 2 ^ w) (h : off + n ≤ buf.length) :
    ((List.range n).mapM fun i => index buf (wrappingAdd w off i)).run s =
      .ok ((buf.drop off).take n, s) := by
  induction n with
  | zero => rfl
  | succ n ih =>
    obtain ⟨byte, hbyte⟩ : ∃ byte, buf[off + n]? = some byte :=
      ⟨_, List.getElem?_eq_getElem (by omega)⟩
    have hindex : (index buf (wrappingAdd w off n)).run s = .ok (byte, s) := by
      rw [wrappingAdd_of_lt (by omega)]
      exact index_run hbyte
    have hone : ([n].mapM fun i => index buf (wrappingAdd w off i)).run s = .ok ([byte], s) := by
      rw [List.mapM_cons, bind_run_of_ok hindex]
      rfl
    rw [List.range_succ, List.mapM_append, bind_run_of_ok (ih (by omega) (by omega)),
      bind_run_of_ok hone, List.take_add_one, List.getElem?_drop, hbyte]
    rfl

theorem decodeBe_run {n off : Nat} {truncated : String} :
    (decodeBe n truncated buf).run off =
      if buf.length < off + n then .error (.decode truncated)
      else .ok (⟨fromBe ((buf.drop off).take n), fromBe_take_lt _ n⟩, off + n) := by
  unfold decodeBe
  rw [get_bind_run]
  split <;> rfl

theorem ofNat_fromBe (bs : List Byte) (n : Nat) :
    Fin.ofNat (2 ^ (8 * n)) (fromBe (bs.take n)) = ⟨fromBe (bs.take n), fromBe_take_lt bs n⟩ :=
  Fin.ext (Nat.mod_eq_of_lt (fromBe_take_lt bs n))

theorem decodeIndexed_follows {n : Nat} (hw : buf.length + n < 2 ^ w) (truncated : String) :
    TrapsAt (fun _ => False) buf (decodeIndexed w buf n truncated) (decodeBe n truncated buf) := by
  refine ⟨fun _ _ h => h.elim, fun off hle _ => ?_, fun off hle a off' hrun => ?_⟩
  · unfold decodeIndexed
    rw [decodeBe_run, get_bind_run, wrappingAdd_of_lt (by omega)]
    split
    · rfl
    · rw [bind_run_of_ok (indices_run (by omega) (by omega)), ofNat_fromBe]
      rfl
  · rw [decodeBe_run] at hrun
    split at hrun
    · cases hrun
    · cases hrun
      omega

theorem decodeU128_follows (hw : buf.length + 16 < 2 ^ w) :
    TrapsAt (fun _ => False) buf (decodeU128 w buf) (NexirMvcc.decodeU128 buf) := by
  have hplain := decodeIndexed_follows (n := 16) hw "truncated u128"
  refine ⟨fun _ _ h => h.elim, fun off hle _ => ?_, hplain.inside⟩
  have hval : Fin.ofNat (2 ^ 128) (fromBe ((buf.drop off).take 16)) = _ := ofNat_fromBe _ 16
  unfold decodeU128 NexirMvcc.decodeU128
  rw [decodeBe_run, get_bind_run, wrappingAdd_of_lt (by omega)]
  split
  · rfl
  · rw [bind_run_of_ok (slice_run (by omega) (by omega)), Nat.add_sub_cancel_left,
      if_neg (not_not.mpr (length_cut (by omega))), hval]
    rfl

theorem decodeByte_follows (hw : buf.length + 1 < 2 ^ w) (missing : String) :
    TrapsAt (fun _ => False) buf (decodeByte w buf missing) (NexirMvcc.decodeByte missing buf) := by
  refine ⟨fun _ _ h => h.elim, fun off hle _ => ?_, fun off hle a off' hrun => ?_⟩
  · unfold decodeByte NexirMvcc.decodeByte
    rw [get_bind_run, get_bind_run, wrappingAdd_of_lt (by omega)]
    split
    · rw [List.getElem?_eq_none (by omega)]
      rfl
    · obtain ⟨byte, hbyte⟩ : ∃ byte, buf[off]? = some byte :=
        ⟨_, List.getElem?_eq_getElem (by omega)⟩
      rw [bind_run_of_ok (index_run hbyte), hbyte]
      rfl
  · obtain ⟨-, hat, rfl, -⟩ := (decodeByte_reads _ _ _ _).mp hrun
    exact hat.le (by simp)

/-- The byte string at the offset would end past the last `usize`. -/
def LongAt (w : Nat) (buf : List Byte) (off : Nat) : Prop :=
  ∃ len : Fin (2 ^ 32), At buf off (encodeU32 len) ∧ 2 ^ w ≤ off + 4 + len.val

/-- The check lets a length pass whose end wraps, and the slice then traps. -/
theorem decodeBytes_follows (hw : buf.length + 4 < 2 ^ w) (h32 : 32 ≤ w) :
    TrapsAt (LongAt w buf) buf (decodeBytes w buf) (NexirMvcc.decodeBytes buf) := by
  have hlen : ∀ len : Fin (2 ^ 32), len.val < 2 ^ w := fun len =>
    len.isLt.trans_le (Nat.pow_le_pow_right (by decide) h32)
  have hu32 : TrapsAt (fun _ => False) buf (decodeU32 w buf) (NexirMvcc.decodeU32 buf) :=
    decodeIndexed_follows hw _
  refine (hu32.bind decodeU32_reads (S := fun len off => 2 ^ w ≤ off + len.val) fun len =>
    ⟨fun off hle hlong => ?_, fun off hle hfits => ?_, fun off hle a off' hrun => ?_⟩).congr ?_
  · have hwrap := wrappingAdd_of_le (by omega) (hlen len) hlong
    rw [get_bind_run, if_neg (by omega), StateT.run_bind]
    unfold slice
    rw [if_neg (by omega)]
    rfl
  · rw [get_bind_run, get_bind_run, wrappingAdd_of_lt (by omega)]
    split
    · rfl
    · rw [bind_run_of_ok (slice_run (by omega) (by omega)), Nat.add_sub_cancel_left]
      rfl
  · obtain ⟨hle', -, rfl⟩ := advance_run.mp hrun
    exact hle'
  · intro off
    simp [LongAt, encodeU32]

/-- Where the machine cannot trap, the rule for a field and the rest is simpler. -/
theorem follows_bind {γ : Type} {m : Decode α} {d : NexirMvcc.Decode α} {f' : α → Decode γ}
    {f : α → NexirMvcc.Decode γ} {enc : α → List Byte} {P : α → Prop} {T : α → Nat → Prop}
    (hm : TrapsAt (fun _ => False) buf m d) (hd : Reads buf d enc P)
    (hf : ∀ a, TrapsAt (T a) buf (f' a) (f a)) :
    TrapsAt (fun off => ∃ a, P a ∧ At buf off (enc a) ∧ T a (off + (enc a).length)) buf
      (m >>= f') (d >>= f) :=
  (hm.bind hd hf).congr fun _ => iff_of_eq (false_or _)

theorem pure_follows (a : α) :
    TrapsAt (fun _ => False) buf (pure a : Decode α) (pure a : NexirMvcc.Decode α) := by
  refine ⟨fun _ _ h => h.elim, fun _ _ _ => rfl, fun off hle a' off' hrun => ?_⟩
  cases hrun
  exact hle

theorem fail_follows (msg : String) :
    TrapsAt (fun _ => False) buf (fail msg : Decode α) (NexirMvcc.fail msg) := by
  refine ⟨fun _ _ h => h.elim, fun _ _ _ => rfl, fun off hle a' off' hrun => ?_⟩
  cases hrun

theorem decodeEnd_follows (a : α) :
    TrapsAt (fun _ => False) buf (decodeEnd buf a) (NexirMvcc.decodeEnd buf a) := by
  refine ⟨fun _ _ h => h.elim, fun off hle _ => ?_, fun off hle a' off' hrun => ?_⟩
  · unfold decodeEnd NexirMvcc.decodeEnd
    rw [get_bind_run, get_bind_run]
    split <;> rfl
  · obtain ⟨-, -, rfl, hend⟩ := (decodeEnd_reads buf a _ _ _).mp hrun
    exact hend.le

theorem decodeHeader_follows (hw : buf.length + 1 < 2 ^ w) (record : Byte) (kind : String) :
    TrapsAt (fun _ => False) buf (decodeHeader w buf record kind)
      (NexirMvcc.decodeHeader record kind buf) := by
  refine (follows_bind (T := fun _ _ => False) (decodeByte_follows hw _) (decodeByte_reads _)
    fun version => ?_).congr (by simp)
  split
  · exact fail_follows _
  · refine (follows_bind (T := fun _ _ => False) (decodeByte_follows hw _) (decodeByte_reads _)
      fun recordType => ?_).congr (by simp)
    split
    · exact fail_follows _
    · exact pure_follows ()

/-- The flag byte, then the field if it is present. -/
theorem decodeFlagged_follows {T : Nat → Prop} {present absent : Byte} {m : Decode α}
    {d : NexirMvcc.Decode α} {enc : α → List Byte} {P : α → Prop} (hw : buf.length + 1 < 2 ^ w)
    (field : String) (h : TrapsAt T buf m d) (hd : Reads buf d enc P) :
    TrapsAt (fun off => At buf off [present] ∧ T (off + 1)) buf
      (decodeFlagged w buf field present absent m)
      (NexirMvcc.decodeFlagged field present absent buf d) := by
  refine (follows_bind (T := fun flag off => flag = present ∧ T off) (decodeByte_follows hw _)
    (decodeByte_reads _) fun flag => ?_).congr ?_
  · by_cases hflag : flag = present
    · rw [if_pos hflag, if_pos hflag]
      refine (h.bind hd fun a => pure_follows (some a)).congr ?_
      simp [hflag]
    · rw [if_neg hflag, if_neg hflag]
      have hnone : ∀ off, False ↔ flag = present ∧ T off := by simp [hflag]
      split
      · exact (pure_follows none).congr hnone
      · exact (fail_follows _).congr hnone
  · intro off
    constructor
    · rintro ⟨flag, -, hat, rfl, ht⟩
      exact ⟨hat, ht⟩
    · rintro ⟨hat, ht⟩
      exact ⟨present, trivial, hat, rfl, ht⟩

end Follow

/-! Records. -/

/-- The buffer begins with `front` and then announces a byte string that would end
past the last `usize`. -/
def Overlong (w : Nat) (buf front : List Byte) : Prop :=
  ∃ len : Fin (2 ^ 32), front ++ encodeU32 len <+: buf ∧ 2 ^ w ≤ front.length + 4 + len.val

/-- A committed record with such a key, or with such a value. -/
def OverlongCommitted (w : Nat) (buf : List Byte) : Prop :=
  Overlong w buf [codecVersion, recordCommitted] ∨
  ∃ key commitTs, Short key ∧ Overlong w buf
    ([codecVersion, recordCommitted] ++ lenBytes key ++ encodeU128 commitTs ++ [flagPresent])

/-- An intent record with such a key, or with such a value to put. -/
def OverlongIntent (w : Nat) (buf : List Byte) : Prop :=
  Overlong w buf [codecVersion, recordIntent] ∨
  ∃ key txnId startTs minCommitTs, Short key ∧ Overlong w buf
    ([codecVersion, recordIntent] ++ lenBytes key ++ encodeU64 txnId ++ encodeU128 startTs ++
      optionBytes flagPresent flagAbsent encodeU128 minCommitTs ++ [mutationPut])

section Records
variable {w : Nat} {buf : List Byte}

theorem overlong_iff {front : List Byte} :
    Overlong w buf front ↔ At buf 0 front ∧ LongAt w buf front.length := by
  have hat : ∀ len, front ++ encodeU32 len <+: buf ↔
      At buf 0 front ∧ At buf front.length (encodeU32 len) := by
    intro len
    have h := @at_append _ buf front (encodeU32 len) 0
    rw [Nat.zero_add] at h
    exact h
  unfold Overlong LongAt
  simp only [hat, and_assoc, exists_and_left]

theorem decodeCommitted_spec (hw : buf.length + 16 < 2 ^ w) (h32 : 32 ≤ w) :
    (OverlongCommitted w buf → decodeCommitted w buf = .error .trap) ∧
    (¬ OverlongCommitted w buf →
      decodeCommitted w buf = (NexirMvcc.decodeCommitted buf).mapError .error) := by
  have hbyte : buf.length + 1 < 2 ^ w := by omega
  have hbytes : TrapsAt _ buf (decodeBytes w buf) _ := decodeBytes_follows (by omega) h32
  have hflag : TrapsAt _ buf
      (decodeFlagged w buf "value flag" flagPresent flagAbsent (decodeBytes w buf)) _ :=
    decodeFlagged_follows hbyte _ hbytes decodeBytes_reads
  -- from the last field to the first
  have hvalue := fun key commitTs =>
    hflag.bind (decodeFlagged_reads (by decide) "value flag" decodeBytes_reads)
      fun value => decodeEnd_follows (⟨key, commitTs, value⟩ : CommittedVersion)
  have hcommitTs := fun key => follows_bind (decodeU128_follows hw) decodeU128_reads (hvalue key)
  have hkey := hbytes.bind decodeBytes_reads hcommitTs
  have hheader := follows_bind (decodeHeader_follows hbyte recordCommitted "committed")
    (decodeHeader_reads _ _) fun _ => hkey
  refine hheader.run_zero ?_
  simp only [OverlongCommitted, overlong_iff, at_append, List.length_append, List.length_cons,
    List.length_nil, Nat.add_assoc, Nat.zero_add, Nat.reduceAdd, true_and, and_false, exists_false,
    or_false, exists_const]
  constructor
  · rintro ⟨hhead, hlong | ⟨key, hshort, hkey, commitTs, hts, hflag, hlong⟩⟩
    · exact .inl ⟨hhead, hlong⟩
    · exact .inr ⟨key, commitTs, hshort, ⟨⟨⟨hhead, hkey⟩, hts⟩, hflag⟩, hlong⟩
  · rintro (⟨hhead, hlong⟩ | ⟨key, commitTs, hshort, ⟨⟨⟨hhead, hkey⟩, hts⟩, hflag⟩, hlong⟩)
    · exact ⟨hhead, .inl hlong⟩
    · exact ⟨hhead, .inr ⟨key, hshort, hkey, commitTs, hts, hflag, hlong⟩⟩

theorem decodeIntent_spec (hw : buf.length + 16 < 2 ^ w) (h32 : 32 ≤ w) :
    (OverlongIntent w buf → decodeIntent w buf = .error .trap) ∧
    (¬ OverlongIntent w buf →
      decodeIntent w buf = (NexirMvcc.decodeIntent buf).mapError .error) := by
  have hbyte : buf.length + 1 < 2 ^ w := by omega
  have hbytes : TrapsAt _ buf (decodeBytes w buf) _ := decodeBytes_follows (by omega) h32
  have hu64 : TrapsAt _ buf (decodeU64 w buf) (NexirMvcc.decodeU64 buf) :=
    decodeIndexed_follows (by omega) _
  have hmin : TrapsAt (fun _ => False) buf
      (decodeFlagged w buf "min_commit_ts flag" flagPresent flagAbsent (decodeU128 w buf)) _ :=
    (decodeFlagged_follows hbyte _ (decodeU128_follows hw) decodeU128_reads).congr (by simp)
  have hput : TrapsAt _ buf
      (decodeFlagged w buf "mutation type" mutationPut mutationDelete (decodeBytes w buf)) _ :=
    decodeFlagged_follows hbyte _ hbytes decodeBytes_reads
  have hmutation := fun key txnId startTs minCommitTs =>
    hput.bind (decodeFlagged_reads (by decide) "mutation type" decodeBytes_reads)
      fun mutation => decodeEnd_follows
        (⟨key, txnId, startTs, Mutation.ofValue mutation, minCommitTs⟩ : Intent)
  have hminCommitTs := fun key txnId startTs =>
    follows_bind hmin (decodeFlagged_reads (by decide) "min_commit_ts flag" decodeU128_reads)
      (hmutation key txnId startTs)
  have hstartTs := fun key txnId =>
    follows_bind (decodeU128_follows hw) decodeU128_reads (hminCommitTs key txnId)
  have htxnId := fun key => follows_bind hu64 decodeU64_reads (hstartTs key)
  have hkey := hbytes.bind decodeBytes_reads htxnId
  have hheader := follows_bind (decodeHeader_follows hbyte recordIntent "intent")
    (decodeHeader_reads _ _) fun _ => hkey
  refine hheader.run_zero ?_
  simp only [OverlongIntent, overlong_iff, at_append, List.length_append, List.length_cons,
    List.length_nil, Nat.add_assoc, Nat.zero_add, Nat.reduceAdd, true_and, and_false, exists_false,
    or_false, exists_const]
  constructor
  · rintro ⟨hhead, hlong | ⟨key, hshort, hkey, txnId, htxn, startTs, hts, minCommitTs, -, hmin,
      hflag, hlong⟩⟩
    · exact .inl ⟨hhead, hlong⟩
    · exact .inr ⟨key, txnId, startTs, minCommitTs, hshort,
        ⟨⟨⟨⟨⟨hhead, hkey⟩, htxn⟩, hts⟩, hmin⟩, hflag⟩, hlong⟩
  · rintro (⟨hhead, hlong⟩ | ⟨key, txnId, startTs, minCommitTs, hshort,
      ⟨⟨⟨⟨⟨hhead, hkey⟩, htxn⟩, hts⟩, hmin⟩, hflag⟩, hlong⟩)
    · exact ⟨hhead, .inl hlong⟩
    · exact ⟨hhead, .inr ⟨key, hshort, hkey, txnId, htxn, startTs, hts, minCommitTs,
        fun _ _ => trivial, hmin, hflag, hlong⟩⟩

/-- With 64 bits the end of every byte string fits. -/
theorem not_overlong_of_wide {front : List Byte} (hlen : buf.length < 2 ^ 63) :
    ¬ Overlong 64 buf front := by
  rintro ⟨len, hfront, hlong⟩
  have hle := hfront.length_le
  have hlt := len.isLt
  rw [List.length_append] at hle
  omega

/-- So only the narrow width needs a condition. -/
theorem width_cases {Q : Nat → Prop} (hw : w = 32 ∨ w = 64) (hwide : w = 64 → ¬ Q 64) :
    ¬ Q w ↔ w = 64 ∨ ¬ Q 32 := by
  rcases hw with rfl | rfl
  · simp
  · exact iff_of_true (hwide rfl) (.inl rfl)

/-- A call returns unless the buffer is overlong. -/
theorem ne_trap_iff {α : Type} {r : Except (Fault CodecError) α} {d : Except CodecError α} {Q : Prop}
    (h : (Q → r = .error .trap) ∧ (¬ Q → r = d.mapError .error)) : r ≠ .error .trap ↔ ¬ Q := by
  constructor
  · exact fun hr hQ => hr (h.1 hQ)
  · intro hQ
    rw [h.2 hQ]
    exact mapError_ne_trap d

end Records

/-- The decoders return on every buffer where `usize` has 64 bits. Where it has 32
they return on a buffer if and only if no byte string they come to in it would end
past `u32::MAX`; on the others they panic. -/
theorem decoders_total_iff (w : Nat) (buf : List Byte) (hw : w = 32 ∨ w = 64)
    (hlen : buf.length < 2 ^ (w - 1)) :
    (decodeCommitted w buf ≠ .error .trap ↔ w = 64 ∨ ¬ OverlongCommitted 32 buf) ∧
    (decodeIntent w buf ≠ .error .trap ↔ w = 64 ∨ ¬ OverlongIntent 32 buf) := by
  have h32 : 32 ≤ w := by omega
  have hroom : buf.length + 16 < 2 ^ w := by
    rcases hw with rfl | rfl <;> omega
  have hnone : w = 64 → ∀ front, ¬ Overlong 64 buf front := by
    rintro rfl front
    exact not_overlong_of_wide hlen
  constructor
  · rw [ne_trap_iff (decodeCommitted_spec hroom h32)]
    refine width_cases (Q := (OverlongCommitted · buf)) hw fun h64 => ?_
    rintro (h | ⟨key, commitTs, -, h⟩) <;> exact hnone h64 _ h
  · rw [ne_trap_iff (decodeIntent_spec hroom h32)]
    refine width_cases (Q := (OverlongIntent · buf)) hw fun h64 => ?_
    rintro (h | ⟨key, txnId, startTs, minCommitTs, -, h⟩) <;> exact hnone h64 _ h

/-- A key of nine bytes of which one is there: the check in `decode_bytes` sees it. -/
theorem decoders_total_iff_torn_key :
    decodeCommitted 32 [2, 1, 0, 0, 0, 9, 7] = .error (.error (.decode "truncated byte slice")) ∧
    ¬ OverlongCommitted 32 [2, 1, 0, 0, 0, 9, 7] := by
  have hdecode : decodeCommitted 32 [2, 1, 0, 0, 0, 9, 7] =
      .error (.error (.decode "truncated byte slice")) := by decide +kernel
  refine ⟨hdecode, ?_⟩
  have h := (decoders_total_iff 32 [2, 1, 0, 0, 0, 9, 7] (.inl rfl) (by decide)).1
  rw [hdecode] at h
  exact (h.mp (by simp)).resolve_left (by decide)

/-- A key of `u32::MAX` bytes: behind the length the offset is 6, and 6 plus the length
wraps to 5. The check passes and `buf[6..5]` panics. -/
theorem decoders_trap_on_wrapped_length :
    ¬ ∀ (w : Nat) (buf : List Byte), w = 32 ∨ w = 64 → buf.length < 2 ^ (w - 1) →
      decodeCommitted w buf ≠ .error .trap ∧ decodeIntent w buf ≠ .error .trap := by
  intro h
  have htrap : decodeCommitted 32 [2, 1, 255, 255, 255, 255] = .error .trap := by decide +kernel
  exact (h 32 [2, 1, 255, 255, 255, 255] (.inl rfl) (by decide)).1 htrap

end Machine

end NexirMvcc
