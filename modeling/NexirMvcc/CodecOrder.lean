import NexirMvcc.Codec

/- The order of encoded records. An adapter that keeps the records of `codec.rs` in a
   sorted store gets them back in the order of their bytes, and `encoded_order` says
   which order of the records that is. The length of a byte string stands in front of
   it, so keys come by length and only then by their bytes (`List.Shortlex`): this is
   not the order of the keys in `InMemoryBackend`. Behind the key of a committed record
   comes its timestamp, so the versions of a key stand together, oldest first; behind
   the key of an intent come the transaction, the start timestamp and the rest.

   The flags are no accident of the layout either: a tombstone sorts in front of the
   values of its timestamp (`FLAG_ABSENT` is below `FLAG_PRESENT`), a delete behind the
   puts (`MUTATION_DELETE` is above `MUTATION_PUT`). Committed records come before all
   intents. -/
namespace NexirMvcc
open ByteCodec

/-! Fields. -/

section Fields
variable {α : Type} {enc : α → List Byte} {P : α → Prop} {r : α → α → Prop}

theorem toBe_sorts (n : Nat) : Sorts (toBe n) (· < 2 ^ (8 * n)) (· < ·) :=
  sorts_of_length (n := n) (fun v _ => length_toBe n v) fun _ _ _ hv' h => toBe_lt_toBe h hv'

/-- The integers of the source: all of them fit in their bytes. -/
theorem fin_sorts (n : Nat) :
    Sorts (fun v : Fin (2 ^ (8 * n)) => toBe n v.val) (fun _ => True) (· < ·) :=
  sorts_of_length (n := n) (fun v _ => length_toBe n v.val) fun _ v' _ _ h => toBe_lt_toBe h v'.isLt

theorem encodeU64_sorts : Sorts encodeU64 (fun _ => True) (· < ·) := fin_sorts 8

theorem encodeU128_sorts : Sorts encodeU128 (fun _ => True) (· < ·) := fin_sorts 16

/-- Shorter byte strings come first. -/
theorem lenBytes_sorts : Sorts lenBytes Short (List.Shortlex (· < ·)) := by
  intro a a' ha ha' s t
  unfold lenBytes
  rw [List.append_assoc, List.append_assoc, toBe_sorts 4 _ _ ha ha', List.shortlex_def]
  constructor
  · rintro (h | ⟨hlen, h⟩)
    · exact .inl (.inl h)
    -- of one length: the bytes, then what follows them
    · have hsorts : Sorts (fun bs : List Byte => bs) (·.length = a.length) (· < ·) :=
        sorts_of_length (n := a.length) (fun _ h => h) fun _ _ _ _ h => h
      rcases (hsorts a a' rfl hlen.symm s t).mp h with hbytes | ⟨heq, hrest⟩
      · exact .inl (.inr ⟨hlen, hbytes⟩)
      · exact .inr ⟨heq, hrest⟩
  · rintro ((h | ⟨hlen, h⟩) | ⟨rfl, h⟩)
    · exact .inl h
    · exact .inr ⟨hlen, KeyOrder.append_lt_append hlen h s t⟩
    · exact .inr ⟨rfl, List.append_left_lt h⟩

/-- A field behind a flag: the flags decide, then the field. -/
theorem optionBytes_sorts {present absent : Byte} {R : Option α → Option α → Prop}
    (hne : present ≠ absent) (h : Sorts enc P r) (hsome : ∀ a a', R (some a) (some a') ↔ r a a')
    (hput : ∀ a, R (some a) none ↔ present < absent)
    (hdelete : ∀ a, R none (some a) ↔ absent < present) (hnone : ¬ R none none) :
    Sorts (optionBytes present absent enc) (fun o => ∀ a ∈ o, P a) R := by
  intro o o' ho ho' s t
  cases o with
  | none =>
    cases o' with
    | none => simp [optionBytes, hnone]
    | some a' => simp [optionBytes, hdelete, hne.symm, List.cons_lt_cons_iff]
  | some a =>
    cases o' with
    | none => simp [optionBytes, hput, hne, List.cons_lt_cons_iff]
    | some a' =>
      rw [hsome, Option.some.injEq, ← h a a' (ho a rfl) (ho' a' rfl) s t]
      simp [optionBytes]

end Fields

/-! Records. -/

/-- The order of committed records: the key by length, then by its bytes; then the
commit timestamp; then the value, a tombstone first. -/
def CommittedVersion.Before (version version' : CommittedVersion) : Prop :=
  Prod.Lex (List.Shortlex (· < ·)) (Prod.Lex (· < ·) (Option.lt (List.Shortlex (· < ·))))
    (version.key, version.commitTs, version.value) (version'.key, version'.commitTs, version'.value)

/-- The order of mutations: the delete last. -/
def Mutation.Before : Mutation → Mutation → Prop
  | .put v, .put v' => List.Shortlex (· < ·) v v'
  | .put _, .delete => True
  | .delete, _ => False

/-- The order of intent records. -/
def Intent.Before (intent intent' : Intent) : Prop :=
  Prod.Lex (List.Shortlex (· < ·))
    (Prod.Lex (· < ·) (Prod.Lex (· < ·) (Prod.Lex (Option.lt (· < ·)) Mutation.Before)))
    (intent.key, intent.txnId, intent.startTs, intent.minCommitTs, intent.mutation)
    (intent'.key, intent'.txnId, intent'.startTs, intent'.minCommitTs, intent'.mutation)

theorem value_sorts : Sorts (optionBytes flagPresent flagAbsent lenBytes)
    (fun o => ∀ v ∈ o, Short v) (Option.lt (List.Shortlex (· < ·))) :=
  optionBytes_sorts (by decide) lenBytes_sorts (fun _ _ => Iff.rfl)
    (fun _ => iff_of_false id (by decide)) (fun _ => iff_of_true trivial (by decide)) id

theorem minCommitTs_sorts : Sorts (optionBytes flagPresent flagAbsent encodeU128)
    (fun o => ∀ ts ∈ o, True) (Option.lt (· < ·)) :=
  optionBytes_sorts (by decide) encodeU128_sorts (fun _ _ => Iff.rfl)
    (fun _ => iff_of_false id (by decide)) (fun _ => iff_of_true trivial (by decide)) id

theorem mutation_sorts : Sorts (fun m : Mutation => optionBytes mutationPut mutationDelete lenBytes m.value)
    (fun m => ∀ v ∈ m.value, Short v) Mutation.Before := by
  have hvalue : Sorts (optionBytes mutationPut mutationDelete lenBytes) (fun o => ∀ v ∈ o, Short v)
      fun o o' => (Mutation.ofValue o).Before (Mutation.ofValue o') :=
    optionBytes_sorts (by decide) lenBytes_sorts (fun _ _ => Iff.rfl)
      (fun _ => iff_of_true trivial (by decide)) (fun _ => iff_of_false id (by decide)) id
  intro m m' hm hm' s t
  have hinj : m.value = m'.value ↔ m = m' := by
    constructor
    · intro h
      rw [← Mutation.ofValue_value m, h, Mutation.ofValue_value]
    · rintro rfl
      rfl
  have hiff := hvalue m.value m'.value hm hm' s t
  dsimp only at hiff ⊢
  rwa [Mutation.ofValue_value, Mutation.ofValue_value, hinj] at hiff

theorem committedBytes_lt_iff {version version' : CommittedVersion} (h : version.Encodable)
    (h' : version'.Encodable) :
    committedBytes version < committedBytes version' ↔ version.Before version' := by
  have hsorts := lenBytes_sorts.pair (encodeU128_sorts.pair value_sorts)
  have hiff := hsorts.lt_iff (a := (version.key, version.commitTs, version.value))
    (b := (version'.key, version'.commitTs, version'.value)) ⟨h.1, trivial, h.2⟩ ⟨h'.1, trivial, h'.2⟩
  unfold committedBytes
  rw [KeyOrder.append_lt_append_left_iff, List.append_nil, List.append_nil]
  exact hiff

theorem intentBytes_lt_iff {intent intent' : Intent} (h : intent.Encodable)
    (h' : intent'.Encodable) : intentBytes intent < intentBytes intent' ↔ intent.Before intent' := by
  have hsorts := lenBytes_sorts.pair (encodeU64_sorts.pair (encodeU128_sorts.pair
    (minCommitTs_sorts.pair mutation_sorts)))
  have hiff := hsorts.lt_iff
    (a := (intent.key, intent.txnId, intent.startTs, intent.minCommitTs, intent.mutation))
    (b := (intent'.key, intent'.txnId, intent'.startTs, intent'.minCommitTs, intent'.mutation))
    ⟨h.1, trivial, trivial, fun _ _ => trivial, h.2⟩
    ⟨h'.1, trivial, trivial, fun _ _ => trivial, h'.2⟩
  unfold intentBytes
  rw [KeyOrder.append_lt_append_left_iff, List.append_nil, List.append_nil]
  exact hiff

/-- What stands between two records of one key is a record of that key, with a
timestamp between theirs. -/
theorem CommittedVersion.Before.between {version version' version'' : CommittedVersion}
    (h : version.Before version') (h' : version'.Before version'') (hkey : version''.key = version.key) :
    version'.key = version.key ∧ version.commitTs ≤ version'.commitTs ∧
      version'.commitTs ≤ version''.commitTs := by
  unfold CommittedVersion.Before at h h'
  simp only [Prod.lex_def] at h h'
  rw [hkey] at h'
  have hasymm : ∀ k k' : Key, List.Shortlex (· < ·) k k' → ¬ List.Shortlex (· < ·) k' k :=
    fun k k' => asymm_of _
  rcases h with h | ⟨he, h⟩
  · rcases h' with h' | ⟨he', -⟩
    · exact absurd h' (hasymm _ _ h)
    · rw [he'] at h
      exact absurd h (hasymm _ _ h)
  · rcases h' with h' | ⟨-, h'⟩
    · rw [he] at h'
      exact absurd h' (hasymm _ _ h')
    · refine ⟨he.symm, ?_, ?_⟩
      · rcases h with h | h
        · exact h.le
        · exact h.1.le
      · rcases h' with h' | h'
        · exact h'.le
        · exact h'.1.le

/-- Committed records come before the intents. -/
theorem committedBytes_lt_intentBytes (version : CommittedVersion) (intent : Intent) :
    committedBytes version < intentBytes intent := by
  unfold committedBytes intentBytes
  have hheader : [codecVersion, recordCommitted] < [codecVersion, recordIntent] := by decide
  exact KeyOrder.append_lt_append (by decide) hheader _ _

/-- The order of the bytes is the order of the records. -/
theorem encoded_order :
    (∀ version version' buf buf', encodeCommitted version = .ok buf →
      encodeCommitted version' = .ok buf' → (buf < buf' ↔ version.Before version')) ∧
    (∀ intent intent' buf buf', encodeIntent intent = .ok buf →
      encodeIntent intent' = .ok buf' → (buf < buf' ↔ intent.Before intent')) ∧
    (∀ version intent buf buf', encodeCommitted version = .ok buf →
      encodeIntent intent = .ok buf' → buf < buf') ∧
    ∀ version version' version'' buf buf' buf'', encodeCommitted version = .ok buf →
      encodeCommitted version' = .ok buf' → encodeCommitted version'' = .ok buf'' →
      buf < buf' → buf' < buf'' → version''.key = version.key →
      version'.key = version.key ∧ version.commitTs ≤ version'.commitTs ∧
        version'.commitTs ≤ version''.commitTs := by
  have hcommitted : ∀ version version' buf buf', encodeCommitted version = .ok buf →
      encodeCommitted version' = .ok buf' → (buf < buf' ↔ version.Before version') := by
    intro version version' buf buf' h h'
    obtain ⟨hv, rfl⟩ := (encodeCommitted_ok _ _).mp h
    obtain ⟨hv', rfl⟩ := (encodeCommitted_ok _ _).mp h'
    exact committedBytes_lt_iff hv hv'
  refine ⟨hcommitted, ?_, ?_, ?_⟩
  · intro intent intent' buf buf' h h'
    obtain ⟨hi, rfl⟩ := (encodeIntent_ok _ _).mp h
    obtain ⟨hi', rfl⟩ := (encodeIntent_ok _ _).mp h'
    exact intentBytes_lt_iff hi hi'
  · intro version intent buf buf' h h'
    obtain ⟨-, rfl⟩ := (encodeCommitted_ok _ _).mp h
    obtain ⟨-, rfl⟩ := (encodeIntent_ok _ _).mp h'
    exact committedBytes_lt_intentBytes version intent
  · intro version version' version'' buf buf' buf'' h h' h'' hlt hlt'
    exact ((hcommitted _ _ _ _ h h').mp hlt).between ((hcommitted _ _ _ _ h' h'').mp hlt')

/-- Two keys in the other order than their bytes: the shorter one comes first. -/
theorem encoded_order_short_key_first :
    ([1, 1] : Key) < [2] ∧ ∃ buf buf', encodeCommitted ⟨[2], 9, none⟩ = .ok buf ∧
      encodeCommitted ⟨[1, 1], 3, some [7]⟩ = .ok buf' ∧ buf < buf' := by
  have h : encodeCommitted ⟨[2], 9, none⟩ = .ok _ := rfl
  have h' : encodeCommitted ⟨[1, 1], 3, some [7]⟩ = .ok _ := rfl
  refine ⟨by decide, _, _, h, h', (encoded_order.1 _ _ _ _ h h').mpr ?_⟩
  exact .left _ _ (.of_length_lt (by decide))

end NexirMvcc
