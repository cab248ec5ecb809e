import NexirMvcc.Foundation.KeyOrder

/- Decoders that read a buffer from an offset, against encoders that append. `At`
   says that a piece stands in the buffer at an offset. A decoder reads an encoding
   if it accepts, at every offset, exactly the values whose encoding stands there,
   and moves the offset behind it (`ReadsTo`); the decoder of a whole record also
   insists on where the offset then is. Records are put together field by field:
   the rule for `bind` appends the encodings.

   `toBe` and `fromBe` are the big-endian bytes of a number and back; as strings
   the bytes are ordered as the numbers are. `Sorts` says how the encodings of a type
   compare with anything behind them, and records compare field by field. -/
namespace ByteCodec

/-! Big-endian numbers. -/

/-- The low `n` bytes of `v`, the highest first. -/
def toBe : Nat → Nat → List (Fin (2 ^ 8))
  | 0, _ => []
  | n + 1, v => toBe n (v / 2 ^ 8) ++ [⟨v % 2 ^ 8, Nat.mod_lt v (by decide)⟩]

def fromBe (bs : List (Fin (2 ^ 8))) : Nat := bs.foldl (fun v b => v * 2 ^ 8 + b.val) 0

@[simp] theorem length_toBe (n v : Nat) : (toBe n v).length = n := by
  induction n generalizing v with
  | zero => rfl
  | succ n ih => simp [toBe, ih]

theorem toBe_ne_nil {n v : Nat} (hn : 0 < n) : toBe n v ≠ [] := by
  refine List.ne_nil_of_length_pos ?_
  rwa [length_toBe]

theorem fromBe_append (bs : List (Fin (2 ^ 8))) (b : Fin (2 ^ 8)) :
    fromBe (bs ++ [b]) = fromBe bs * 2 ^ 8 + b.val := by
  unfold fromBe
  rw [List.foldl_append]
  rfl

/-- Without its last byte a number needs one byte less. -/
theorem div_lt_of_lt {n v : Nat} (h : v < 2 ^ (8 * (n + 1))) : v / 2 ^ 8 < 2 ^ (8 * n) := by
  rw [Nat.div_lt_iff_lt_mul (by decide), ← pow_add]
  exact h

theorem fromBe_toBe {n v : Nat} (h : v < 2 ^ (8 * n)) : fromBe (toBe n v) = v := by
  induction n generalizing v with
  | zero =>
    obtain rfl : v = 0 := by simpa using h
    rfl
  | succ n ih =>
    rw [toBe, fromBe_append, ih (div_lt_of_lt h)]
    dsimp only
    omega

/-- Numbers that fit in `n` bytes keep their order: either the bytes in front differ,
and decide, or the last one does. -/
theorem toBe_lt_toBe {n v v' : Nat} (h : v < v') (hv' : v' < 2 ^ (8 * n)) : toBe n v < toBe n v' := by
  induction n generalizing v v' with
  | zero =>
    rw [Nat.mul_zero, pow_zero] at hv'
    omega
  | succ n ih =>
    have hlen : (toBe n (v / 2 ^ 8)).length = (toBe n (v' / 2 ^ 8)).length := by
      rw [length_toBe, length_toBe]
    rw [toBe, toBe]
    rcases (Nat.div_le_div_right h.le : v / 2 ^ 8 ≤ v' / 2 ^ 8).lt_or_eq with hlt | heq
    · exact KeyOrder.append_lt_append hlen (ih hlt (div_lt_of_lt hv')) _ _
    · have hmod : v % 2 ^ 8 < v' % 2 ^ 8 := by omega
      rw [heq]
      refine List.append_left_lt ?_
      rw [List.cons_lt_cons_iff]
      exact .inl hmod

theorem toBe_fromBe (bs : List (Fin (2 ^ 8))) : toBe bs.length (fromBe bs) = bs := by
  induction bs using List.reverseRecOn with
  | nil => rfl
  | append_singleton bs b ih =>
    have hb : b.val < 2 ^ 8 := b.isLt
    have hdiv : (fromBe bs * 2 ^ 8 + b.val) / 2 ^ 8 = fromBe bs := by omega
    have hmod : (fromBe bs * 2 ^ 8 + b.val) % 2 ^ 8 = b.val := by omega
    rw [List.length_append, List.length_singleton, toBe, fromBe_append, hdiv, ih]
    simp only [hmod]

theorem fromBe_lt (bs : List (Fin (2 ^ 8))) : fromBe bs < 2 ^ (8 * bs.length) := by
  induction bs using List.reverseRecOn with
  | nil => decide
  | append_singleton bs b ih =>
    have hb : b.val < 2 ^ 8 := b.isLt
    rw [fromBe_append, List.length_append, List.length_singleton, Nat.mul_add, pow_add]
    omega

theorem fromBe_take_lt (bs : List (Fin (2 ^ 8))) (n : Nat) : fromBe (bs.take n) < 2 ^ (8 * n) := by
  refine (fromBe_lt _).trans_le (Nat.pow_le_pow_right (by decide) ?_)
  rw [List.length_take]
  omega

/-! Pieces of a buffer. -/

section At
variable {β : Type} {buf bs cs : List β} {off : Nat}

/-- The piece `bs` stands in `buf` at `off`. -/
def At (buf : List β) (off : Nat) (bs : List β) : Prop := bs <+: buf.drop off

@[simp] theorem at_nil : At buf off [] := List.nil_prefix

theorem at_append : At buf off (bs ++ cs) ↔ At buf off bs ∧ At buf (off + bs.length) cs := by
  unfold At
  rw [← List.drop_drop]
  constructor
  · rintro ⟨post, hpost⟩
    rw [← hpost, List.append_assoc, List.drop_left]
    exact ⟨List.prefix_append _ _, List.prefix_append _ _⟩
  · rintro ⟨⟨post, hpost⟩, hcs⟩
    rw [← hpost, List.drop_left] at hcs
    rw [← hpost]
    exact (List.prefix_append_right_inj bs).mpr hcs

theorem at_cons {b : β} : At buf off (b :: bs) ↔ At buf off [b] ∧ At buf (off + 1) bs := by
  rw [← List.singleton_append, at_append, List.length_singleton]

/-- A piece is what is cut out of the buffer at its length. -/
theorem at_iff_take : At buf off bs ↔ (buf.drop off).take bs.length = bs := by
  unfold At
  rw [List.prefix_iff_eq_take, eq_comm]

theorem at_singleton {b : β} : At buf off [b] ↔ buf[off]? = some b := by
  rw [at_iff_take, List.length_singleton, List.take_one, List.head?_drop]
  cases buf[off]? <;> simp

theorem At.le (h : At buf off bs) (hne : bs ≠ []) : off + bs.length ≤ buf.length := by
  have hle := List.IsPrefix.length_le h
  have hpos := List.length_pos_iff.mpr hne
  rw [List.length_drop] at hle
  omega

theorem length_cut {n : Nat} (h : off + n ≤ buf.length) : ((buf.drop off).take n).length = n := by
  rw [List.length_take, List.length_drop]
  omega

/-- The whole buffer. -/
theorem at_zero : At buf 0 bs ∧ bs.length = buf.length ↔ bs = buf := by
  rw [at_iff_take, List.drop_zero]
  constructor
  · rintro ⟨htake, hlen⟩
    rw [hlen, List.take_length] at htake
    exact htake.symm
  · rintro rfl
    simp

end At

/-! Decoders. -/

/-- A decoder: it moves an offset, or fails. -/
abbrev Decoder (ε α : Type) := StateT Nat (Except ε) α

section Readers
variable {β ε α γ : Type} {buf : List β} {E : Nat → Prop}

/-- The decoder accepts exactly the values with `P` whose encoding stands at the
offset, and moves behind it, where `E` holds of the offset. -/
def ReadsTo (E : Nat → Prop) (buf : List β) (d : Decoder ε α) (enc : α → List β)
    (P : α → Prop) : Prop :=
  ∀ off a off', d.run off = .ok (a, off') ↔
    P a ∧ At buf off (enc a) ∧ off' = off + (enc a).length ∧ E off'

/-- A decoder of a field: the buffer may go on. -/
abbrev Reads (buf : List β) (d : Decoder ε α) (enc : α → List β) (P : α → Prop) : Prop :=
  ReadsTo (fun _ => True) buf d enc P

theorem except_bind_ok {x : Except ε α} {f : α → Except ε γ} {c : γ} :
    (x >>= f) = .ok c ↔ ∃ a, x = .ok a ∧ f a = .ok c := by
  cases x with
  | error e =>
    constructor
    · intro h
      cases h
    · rintro ⟨a, ha, -⟩
      cases ha
  | ok a =>
    constructor
    · exact fun h => ⟨a, rfl, h⟩
    · rintro ⟨a', ha, h⟩
      cases ha
      exact h

theorem bind_run_ok {d : Decoder ε α} {f : α → Decoder ε γ} {off : Nat} {x : γ × Nat} :
    (d >>= f).run off = .ok x ↔ ∃ a off₁, d.run off = .ok (a, off₁) ∧ (f a).run off₁ = .ok x := by
  rw [StateT.run_bind, except_bind_ok, Prod.exists]

theorem get_bind_run {f : Nat → Decoder ε α} {off : Nat} :
    ((get : Decoder ε Nat) >>= f).run off = (f off).run off := rfl

theorem bind_run_of_ok {d : Decoder ε α} {f : α → Decoder ε γ} {a : α} {off off₁ : Nat}
    (h : d.run off = .ok (a, off₁)) : (d >>= f).run off = (f a).run off₁ := by
  rw [StateT.run_bind, h]
  rfl

/-- A field, then the rest of the record, which fixes the field: `proj`. -/
theorem ReadsTo.bind {d : Decoder ε α} {f : α → Decoder ε γ} {enc : α → List β} {P : α → Prop}
    {rest : γ → List β} {Q : α → γ → Prop} (proj : γ → α) (hd : Reads buf d enc P)
    (hQ : ∀ a c, Q a c → proj c = a) (hf : ∀ a, ReadsTo E buf (f a) rest (Q a)) :
    ReadsTo E buf (d >>= f) (fun c => enc (proj c) ++ rest c) fun c => P (proj c) ∧ Q (proj c) c := by
  intro off c off'
  rw [bind_run_ok]
  constructor
  · rintro ⟨a, off₁, ha, hc⟩
    obtain ⟨hP, hat, rfl, -⟩ := (hd _ _ _).mp ha
    obtain ⟨hq, hat', hoff, hend⟩ := (hf _ _ _ _).mp hc
    obtain rfl := hQ _ _ hq
    refine ⟨⟨hP, hq⟩, at_append.mpr ⟨hat, hat'⟩, ?_, hend⟩
    rw [hoff, List.length_append, Nat.add_assoc]
  · rintro ⟨⟨hP, hq⟩, hat, hoff, hend⟩
    obtain ⟨hat, hat'⟩ := at_append.mp hat
    refine ⟨proj c, _, (hd _ _ _).mpr ⟨hP, hat, rfl, trivial⟩,
      (hf _ _ _ _).mpr ⟨hq, hat', ?_, hend⟩⟩
    rw [hoff, List.length_append, Nat.add_assoc]

theorem ReadsTo.congr {d : Decoder ε α} {enc : α → List β} {P P' : α → Prop}
    (h : ReadsTo E buf d enc P) (hP : ∀ a, P a ↔ P' a) : ReadsTo E buf d enc P' := by
  intro off a off'
  rw [h, hP]

/-- The end of a decoder that leaves the rest of the buffer alone. -/
theorem pure_reads (buf : List β) (a : α) :
    Reads buf (pure a : Decoder ε α) (fun _ => []) (· = a) := by
  intro off x off'
  show Except.ok (a, off) = Except.ok (x, off') ↔ _
  constructor
  · rintro ⟨⟩
    exact ⟨rfl, at_nil, rfl, trivial⟩
  · rintro ⟨rfl, -, rfl, -⟩
    rfl

/-- An encoding that a decoder reads out of any longer buffer is no proper prefix of
another one. -/
theorem eq_of_isPrefix {d : List β → Decoder ε α} {enc : α → List β} {P : α → Prop}
    (hd : ∀ buf, Reads buf (d buf) enc P) {a a' : α} (ha : P a) (ha' : P a')
    (h : enc a <+: enc a') : a = a' := by
  -- from the start of the longer one the decoder would return both
  have hrun := (hd (enc a') 0 a _).mpr ⟨ha, h, rfl, trivial⟩
  have hrun' := (hd (enc a') 0 a' _).mpr ⟨ha', List.prefix_rfl, rfl, trivial⟩
  rw [hrun] at hrun'
  exact congrArg Prod.fst (Except.ok.inj hrun')

/-- A decoder that reads to the end, run from the start, accepts exactly the
encodings. -/
theorem ReadsTo.run_zero {d : Decoder ε α} {enc : α → List β} {P : α → Prop}
    (h : ReadsTo (· = buf.length) buf d enc P) {a : α} : d.run' 0 = .ok a ↔ P a ∧ enc a = buf := by
  rw [← at_zero]
  have hrun : d.run' 0 = .ok a ↔ ∃ off', d.run 0 = .ok (a, off') := by
    show Prod.fst <$> d.run 0 = .ok a ↔ _
    cases d.run 0 with
    | error e => simp
    | ok r => simp [Prod.ext_iff]
  rw [hrun]
  constructor
  · rintro ⟨off', hd⟩
    obtain ⟨hP, hat, hoff, hend⟩ := (h _ _ _).mp hd
    exact ⟨hP, hat, by omega⟩
  · rintro ⟨hP, hat, hlen⟩
    exact ⟨_, (h _ _ _).mpr ⟨hP, hat, rfl, by omega⟩⟩

end Readers

/-! Orders of encodings. -/

section Sorts
variable {β α γ : Type} [LinearOrder β] {enc : α → List β} {enc' : γ → List β} {P : α → Prop}
  {Q : γ → Prop} {r : α → α → Prop} {r' : γ → γ → Prop}

/-- The encodings of the values with `P` are ordered by `r`, whatever stands behind
them; only behind equal values does the rest decide. -/
def Sorts (enc : α → List β) (P : α → Prop) (r : α → α → Prop) : Prop :=
  ∀ a a', P a → P a' → ∀ s t, enc a ++ s < enc a' ++ t ↔ r a a' ∨ a = a' ∧ s < t

/-- The encodings as they are. -/
theorem Sorts.lt_iff (h : Sorts enc P r) {a b : α} (ha : P a) (hb : P b) :
    enc a < enc b ↔ r a b := by
  have hiff := h a b ha hb [] []
  rw [List.append_nil, List.append_nil] at hiff
  rw [hiff]
  simp

/-- A field, then another: the first one decides first. -/
theorem Sorts.pair (h : Sorts enc P r) (h' : Sorts enc' Q r') :
    Sorts (fun x : α × γ => enc x.1 ++ enc' x.2) (fun x => P x.1 ∧ Q x.2) (Prod.Lex r r') := by
  rintro ⟨a, c⟩ ⟨a', c'⟩ ⟨ha, hc⟩ ⟨ha', hc'⟩ s t
  rw [List.append_assoc, List.append_assoc, h a a' ha ha', h' c c' hc hc', Prod.lex_def,
    Prod.mk.injEq]
  tauto

/-- Encodings of one length sort as soon as they keep a strict order. -/
theorem sorts_of_length [LinearOrder α] {n : Nat} (hlen : ∀ a, P a → (enc a).length = n)
    (hlt : ∀ a a', P a → P a' → a < a' → enc a < enc a') : Sorts enc P (· < ·) := by
  intro a a' ha ha' s t
  have hlen' := (hlen a ha).trans (hlen a' ha').symm
  rcases lt_trichotomy a a' with h | rfl | h
  · exact iff_of_true (KeyOrder.append_lt_append hlen' (hlt a a' ha ha' h) s t) (.inl h)
  · rw [KeyOrder.append_lt_append_left_iff]
    simp
  · have hback := KeyOrder.append_lt_append hlen'.symm (hlt a' a ha' ha h) t s
    refine iff_of_false (lt_asymm hback) ?_
    rintro (hlt | ⟨rfl, -⟩)
    · exact lt_asymm h hlt
    · exact lt_irrefl a h

end Sorts

/-! Decoders on a machine that can trap. -/

/-- A failed decoder has found an error, or the machine has trapped. -/
inductive Fault (ε : Type) where
  | trap
  | error (e : ε)
  deriving DecidableEq

section Traps
variable {β ε α γ : Type} {buf : List β} {T : Nat → Prop}

/-- From the offsets in `T` the machine traps; from all others it does what `d` does,
which stays inside the buffer. -/
structure TrapsAt (T : Nat → Prop) (buf : List β) (m : Decoder (Fault ε) α) (d : Decoder ε α) :
    Prop where
  traps : ∀ off ≤ buf.length, T off → m.run off = .error .trap
  follows : ∀ off ≤ buf.length, ¬ T off → m.run off = (d.run off).mapError .error
  inside : ∀ off ≤ buf.length, ∀ a off', d.run off = .ok (a, off') → off' ≤ buf.length

theorem TrapsAt.congr {T' : Nat → Prop} {m : Decoder (Fault ε) α} {d : Decoder ε α}
    (h : TrapsAt T buf m d) (hT : ∀ off, T off ↔ T' off) : TrapsAt T' buf m d :=
  ⟨fun off hle ht => h.traps off hle ((hT off).mpr ht),
    fun off hle ht => h.follows off hle (mt (hT off).mp ht), h.inside⟩

/-- A field, then the rest: the machine traps in the field, or behind one that it has
read. -/
theorem TrapsAt.bind {m : Decoder (Fault ε) α} {d : Decoder ε α} {f' : α → Decoder (Fault ε) γ}
    {f : α → Decoder ε γ} {enc : α → List β} {P : α → Prop} {S : α → Nat → Prop}
    (hm : TrapsAt T buf m d) (hd : Reads buf d enc P) (hf : ∀ a, TrapsAt (S a) buf (f' a) (f a)) :
    TrapsAt (fun off => T off ∨ ∃ a, P a ∧ At buf off (enc a) ∧ S a (off + (enc a).length)) buf
      (m >>= f') (d >>= f) := by
  refine ⟨?_, ?_, ?_⟩
  · rintro off hle (ht | ⟨a, hP, hat, ht⟩)
    · rw [StateT.run_bind, hm.traps off hle ht]
      rfl
    · have hrun := (hd off a _).mpr ⟨hP, hat, rfl, trivial⟩
      rw [StateT.run_bind]
      by_cases hT : T off
      · rw [hm.traps off hle hT]
        rfl
      · rw [hm.follows off hle hT, hrun]
        exact (hf a).traps _ (hm.inside off hle _ _ hrun) ht
  · intro off hle hn
    obtain ⟨hT, hn⟩ := not_or.mp hn
    rw [StateT.run_bind, StateT.run_bind, hm.follows off hle hT]
    cases hrun : d.run off with
    | error e => rfl
    | ok x =>
      obtain ⟨a, off₁⟩ := x
      obtain ⟨hP, hat, rfl, -⟩ := (hd off a off₁).mp hrun
      exact (hf a).follows _ (hm.inside off hle _ _ hrun) fun ht => hn ⟨a, hP, hat, ht⟩
  · intro off hle c off' hrun
    obtain ⟨a, off₁, ha, hc⟩ := bind_run_ok.mp hrun
    exact (hf a).inside off₁ (hm.inside off hle a off₁ ha) c off' hc

/-- A whole run: a trap, or what `d` returns. -/
theorem TrapsAt.run_zero {m : Decoder (Fault ε) α} {d : Decoder ε α} {Q : Prop}
    (h : TrapsAt T buf m d) (hT : T 0 ↔ Q) :
    (Q → m.run' 0 = .error .trap) ∧ (¬ Q → m.run' 0 = (d.run' 0).mapError .error) := by
  have hrun : m.run' 0 = Prod.fst <$> m.run 0 := rfl
  rw [hrun]
  constructor
  · intro hQ
    rw [h.traps 0 (Nat.zero_le _) (hT.mpr hQ)]
    rfl
  · intro hQ
    rw [h.follows 0 (Nat.zero_le _) (mt hT.mp hQ)]
    show _ = (Prod.fst <$> d.run 0).mapError Fault.error
    cases d.run 0 <;> rfl

theorem mapError_ne_trap (r : Except ε α) : r.mapError Fault.error ≠ .error .trap := by
  cases r <;> simp [Except.mapError]

end Traps

end ByteCodec
