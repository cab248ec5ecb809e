import Mathlib

/- Programs over a fallible device. A program is a tree of calls: `call c k`
   issues the call `c` and goes on with `k` at the device's answer, which is
   either a reply of the call's type or a failure; `ret` ends the program with a
   value or an error. Nothing is said here about what the calls are.

   A deterministic device (`Handler`) evaluates a tree (`eval`). A device in
   general is a relation between the state before a call, the answer and the
   state after it (`Device`), and `Exec` is one execution against it with the
   list of calls made and their answers. `Meets` is the weakest precondition of
   a tree: every call is issued where a contract allows it, and every execution
   ends in the postcondition. `OneShot` says that a tree only reads until one
   last mutating call, whose answer it returns. -/

/-- A tree of calls `c : C` answered by a reply of type `R c` or a failure in
`φ`, ending with a value in `α` or an error in `ε`. -/
inductive CallTree {C : Type} (R : C → Type) (φ ε α : Type) : Type where
  | ret (r : Except ε α)
  | call (c : C) (k : Except φ (R c) → CallTree R φ ε α)

namespace CallTree
variable {C : Type} {R : C → Type} {φ ε α β σ : Type}

def bind : CallTree R φ ε α → (α → CallTree R φ ε β) → CallTree R φ ε β
  | .ret (.ok a), f => f a
  | .ret (.error e), _ => .ret (.error e)
  | .call c k, f => .call c (fun x => (k x).bind f)

instance : Monad (CallTree R φ ε) where
  pure a := .ret (.ok a)
  bind := bind

/-- End the program with an error. -/
def throw (e : ε) : CallTree R φ ε α := .ret (.error e)

/-- Issue one call; a failure ends the program with the failure wrapped as an
error of the program. -/
def ask (c : C) (wrap : φ → ε) : CallTree R φ ε (R c) :=
  .call c fun
    | .ok a => .ret (.ok a)
    | .error f => .ret (.error (wrap f))

/-- The same program with its errors renamed. -/
def mapError {ε' : Type} (g : ε → ε') : CallTree R φ ε α → CallTree R φ ε' α
  | .ret (.ok a) => .ret (.ok a)
  | .ret (.error e) => .ret (.error (g e))
  | .call c k => .call c (fun x => (k x).mapError g)

section MapError
variable {ε' : Type} (g : ε → ε')

theorem mapError_bind (t : CallTree R φ ε α) (f : α → CallTree R φ ε β) :
    (t >>= f).mapError g = t.mapError g >>= fun a => (f a).mapError g := by
  induction t with
  | ret r => cases r <;> rfl
  | call c k ih => exact congrArg (CallTree.call c) (funext ih)

theorem mapError_ask (c : C) (wrap : φ → ε) :
    (ask c wrap : CallTree R φ ε (R c)).mapError g = ask c fun e => g (wrap e) := by
  refine congrArg (CallTree.call c) (funext fun x => ?_)
  cases x <;> rfl

end MapError

/-! Evaluation against a deterministic device. -/

abbrev Handler (R : C → Type) (φ σ : Type) := (c : C) → σ → Except φ (R c) × σ

def eval (h : Handler R φ σ) : CallTree R φ ε α → σ → Except ε α × σ
  | .ret r, s => (r, s)
  | .call c k, s => eval h (k (h c s).1) (h c s).2

section Eval
variable (h : Handler R φ σ) (s : σ)

theorem eval_bind (t : CallTree R φ ε α) (f : α → CallTree R φ ε β) (s : σ) :
    eval h (t >>= f) s = match eval h t s with
      | (.ok a, s') => eval h (f a) s'
      | (.error e, s') => (.error e, s') := by
  induction t generalizing s with
  | ret r => cases r <;> rfl
  | call c k ih => exact ih (h c s).1 (h c s).2

theorem eval_mapError {ε' : Type} (g : ε → ε') (t : CallTree R φ ε α) (s : σ) :
    eval h (t.mapError g) s = ((eval h t s).1.mapError g, (eval h t s).2) := by
  induction t generalizing s with
  | ret r => cases r <;> rfl
  | call c k ih => exact ih (h c s).1 (h c s).2

/-- What every call preserves, a tree preserves. -/
theorem eval_inv {h : Handler R φ σ} {P : σ → Prop} (hcall : ∀ c s, P s → P (h c s).2)
    {t : CallTree R φ ε α} {s : σ} (hs : P s) : P (eval h t s).2 := by
  induction t generalizing s with
  | ret r => exact hs
  | call c k ih => exact ih _ (hcall c s hs)

end Eval

/-! Executions against a device that may answer in several ways. -/

abbrev Device (R : C → Type) (φ σ : Type) := (c : C) → σ → Except φ (R c) → σ → Prop

/-- A call made during an execution, with the answer it got. -/
abbrev CallEvent (R : C → Type) (φ : Type) := (c : C) × Except φ (R c)

/-- `Exec D t s es r s'`: from `s`, the tree makes the calls `es` in order and
ends with `r` in state `s'`. -/
inductive Exec (D : Device R φ σ) :
    CallTree R φ ε α → σ → List (CallEvent R φ) → Except ε α → σ → Prop where
  | ret {r : Except ε α} {s : σ} : Exec D (.ret r) s [] r s
  | call {c : C} {k : Except φ (R c) → CallTree R φ ε α} {s s' s'' : σ} {x : Except φ (R c)}
      {es : List (CallEvent R φ)} {r : Except ε α} :
      D c s x s' → Exec D (k x) s' es r s'' → Exec D (.call c k) s (⟨c, x⟩ :: es) r s''

/-- The deterministic device, except that any call may fail and then leaves the
state as it was. -/
def Handler.faulty (h : Handler R φ σ) : Device R φ σ :=
  fun c s x s' => h c s = (x, s') ∨ (∃ f, x = .error f) ∧ s' = s

/-- The calls that the evaluation makes. -/
def calls (h : Handler R φ σ) : CallTree R φ ε α → σ → List (CallEvent R φ)
  | .ret _, _ => []
  | .call c k, s => ⟨c, (h c s).1⟩ :: calls h (k (h c s).1) (h c s).2

/-- The evaluation is an execution on every device that can answer as `h` does. -/
theorem exec_calls {D : Device R φ σ} {h : Handler R φ σ} (hD : ∀ c s, D c s (h c s).1 (h c s).2)
    (t : CallTree R φ ε α) (s : σ) : Exec D t s (calls h t s) (eval h t s).1 (eval h t s).2 := by
  induction t generalizing s with
  | ret r => exact .ret
  | call c k ih => exact .call (hD c s) (ih (h c s).1 (h c s).2)

/-- The evaluation is the execution in which no call fails. -/
theorem exec_eval (h : Handler R φ σ) (t : CallTree R φ ε α) (s : σ) :
    ∃ es, Exec h.faulty t s es (eval h t s).1 (eval h t s).2 :=
  ⟨_, exec_calls (fun _ _ => .inl rfl) t s⟩

/-- And an execution in which no call fails is the evaluation. -/
theorem Exec.eval_eq {h : Handler R φ σ} {t : CallTree R φ ε α} {s s' : σ}
    {es : List (CallEvent R φ)} {r : Except ε α} (he : Exec h.faulty t s es r s')
    (hok : ∀ e ∈ es, ∃ a, e.2 = .ok a) : eval h t s = (r, s') := by
  induction he with
  | ret => rfl
  | call hd _ ih =>
    obtain ⟨⟨a, ha⟩, hok⟩ := List.forall_mem_cons.mp hok
    rcases hd with hd | ⟨⟨f, hf⟩, -⟩
    · show eval h _ (h _ _).2 = _
      rw [hd]
      exact ih hok
    · rw [hf] at ha
      cases ha

/-- What holds of every answer of the device holds of every call made. -/
theorem Exec.forall_calls {D : Device R φ σ} {P : CallEvent R φ → Prop}
    (hD : ∀ c s x s', D c s x s' → P ⟨c, x⟩) {t : CallTree R φ ε α} {s s' : σ}
    {es : List (CallEvent R φ)} {r : Except ε α} (he : Exec D t s es r s') : ∀ e ∈ es, P e := by
  induction he with
  | ret => simp
  | call hd _ ih => exact List.forall_mem_cons.mpr ⟨hD _ _ _ _ hd, ih⟩

/-- The state after some answered calls: a call that got a reply has had its
effect, one that failed has had none. -/
def replay (h : Handler R φ σ) (s : σ) (es : List (CallEvent R φ)) : σ :=
  es.foldl (fun s e => match e.2 with
    | .ok _ => (h e.1 s).2
    | .error _ => s) s

theorem faulty_replay {h : Handler R φ σ} (herr : ∀ c s f s', h c s = (.error f, s') → s' = s)
    {c : C} {s s' : σ} {x : Except φ (R c)} (hd : h.faulty c s x s') : s' = replay h s [⟨c, x⟩] := by
  rcases hd with hd | ⟨⟨f, rfl⟩, rfl⟩
  · cases x with
    | ok a => exact (congrArg Prod.snd hd).symm
    | error f => exact herr c s f s' hd
  · rfl

/-- Two devices in related states: if every answer of the first one could have been
given by the second one, and leaves them related, then so does every execution. -/
theorem Exec.sim {τ : Type} {D : Device R φ σ} {D' : Device R φ τ} {J : σ → τ → Prop}
    (hD : ∀ c s u x s', J s u → D c s x s' → ∃ u', D' c u x u' ∧ J s' u') {t : CallTree R φ ε α}
    {s s' : σ} {es : List (CallEvent R φ)} {r : Except ε α} (he : Exec D t s es r s') {u : τ}
    (hJ : J s u) : ∃ u', Exec D' t u es r u' ∧ J s' u' := by
  induction he generalizing u with
  | ret => exact ⟨u, .ret, hJ⟩
  | call hd _ ih =>
    obtain ⟨u₁, hd', hJ₁⟩ := hD _ _ _ _ _ hJ hd
    obtain ⟨u₂, he', hJ₂⟩ := ih hJ₁
    exact ⟨u₂, .call hd' he', hJ₂⟩

/-- A device every answer of which another one could have given, seen through
`view`, has only executions of that one. -/
theorem Exec.view {τ : Type} {D : Device R φ σ} {D' : Device R φ τ} {view : σ → τ}
    (hD : ∀ c s x s', D c s x s' → D' c (view s) x (view s')) {t : CallTree R φ ε α} {s s' : σ}
    {es : List (CallEvent R φ)} {r : Except ε α} (he : Exec D t s es r s') :
    Exec D' t (view s) es r (view s') := by
  obtain ⟨u, he', rfl⟩ := he.sim (J := fun s u => view s = u)
    (fun c s u x s' hu hd => ⟨view s', hu ▸ hD c s x s' hd, rfl⟩) rfl
  exact he'

/-! Preconditions. -/

/-- From `s`, every call of the tree is issued where the contract `A` allows it,
and every execution ends in `Q`. -/
def Meets (D : Device R φ σ) (A : C → σ → Prop) (Q : Except ε α → σ → Prop) :
    CallTree R φ ε α → σ → Prop
  | .ret r, s => Q r s
  | .call c k, s => A c s ∧ ∀ x s', D c s x s' → Meets D A Q (k x) s'

namespace Meets
variable {D : Device R φ σ} {A : C → σ → Prop} {Q Q' : Except ε α → σ → Prop} {s : σ}

theorem mono {t : CallTree R φ ε α} (ht : Meets D A Q t s) (hq : ∀ r s, Q r s → Q' r s) :
    Meets D A Q' t s := by
  induction t generalizing s with
  | ret r => exact hq r s ht
  | call c k ih => exact ⟨ht.1, fun x s' hd => ih x (ht.2 x s' hd)⟩

/-- Sequencing: the first part meets a postcondition under which an error is
already the wanted end and a value is a start for the second part. -/
theorem bind {t : CallTree R φ ε α} {f : α → CallTree R φ ε β} {Q : Except ε β → σ → Prop}
    (ht : Meets D A (fun r s' => match r with
      | .ok a => Meets D A Q (f a) s'
      | .error e => Q (.error e) s') t s) : Meets D A Q (t >>= f) s := by
  induction t generalizing s with
  | ret r => cases r <;> exact ht
  | call c k ih => exact ⟨ht.1, fun x s' hd => ih x (ht.2 x s' hd)⟩

/-- A call and its continuation. -/
theorem ask_bind {c : C} {wrap : φ → ε} {f : R c → CallTree R φ ε β} {Q : Except ε β → σ → Prop}
    (hA : A c s) (hok : ∀ a s', D c s (.ok a) s' → Meets D A Q (f a) s')
    (herr : ∀ e s', D c s (.error e) s' → Q (.error (wrap e)) s') :
    Meets D A Q (ask c wrap >>= f) s := by
  refine ⟨hA, ?_⟩
  intro x s' hd
  cases x with
  | ok a => exact hok a s' hd
  | error e => exact herr e s' hd

/-- Every execution of a tree that meets `Q` ends in `Q`. -/
theorem exec {t : CallTree R φ ε α} {es : List (CallEvent R φ)} {r : Except ε α} {s' : σ}
    (ht : Meets D A Q t s) (he : Exec D t s es r s') : Q r s' := by
  induction he with
  | ret => exact ht
  | call hd _ ih => exact ih (ht.2 _ _ hd)

/-- Every call of an execution is issued where the contract allows it: in the state
that the calls before it have left. -/
theorem exec_contract {h : Handler R φ σ} (herr : ∀ c s f s', h c s = (.error f, s') → s' = s)
    {t : CallTree R φ ε α} {es : List (CallEvent R φ)} {r : Except ε α} {s' : σ}
    (ht : Meets h.faulty A Q t s) (he : Exec h.faulty t s es r s') {pre post : List (CallEvent R φ)}
    {c : C} {x : Except φ (R c)} (hes : es = pre ++ ⟨c, x⟩ :: post) : A c (replay h s pre) := by
  induction he generalizing pre with
  | ret => simp at hes
  | @call c' k s s₁ s₂ x' es r hd _ ih =>
    rcases pre with _ | ⟨e, pre⟩
    · cases hes
      exact ht.1
    · obtain ⟨rfl, rfl⟩ := List.cons.inj hes
      have hs₁ := faulty_replay herr hd
      rw [show replay h s (⟨c', x'⟩ :: pre) = replay h s₁ pre by rw [hs₁]; rfl]
      exact ih (ht.2 _ _ hd) rfl

/-- A reflexive and transitive relation that every call allowed by the contract
keeps holds across every execution, also one in which calls fail. -/
theorem exec_rel {h : Handler R φ σ} {t : CallTree R φ ε α} {es : List (CallEvent R φ)}
    {r : Except ε α} {s' : σ} (ht : Meets h.faulty A Q t s) (he : Exec h.faulty t s es r s')
    (Rel : σ → σ → Prop) (hrefl : ∀ s, Rel s s)
    (htrans : ∀ s s' s'', Rel s s' → Rel s' s'' → Rel s s'')
    (hcall : ∀ c s, A c s → Rel s (h c s).2) : Rel s s' := by
  induction he with
  | ret => exact hrefl _
  | @call c k s s₁ s₂ x es r hd _ ih =>
    refine htrans _ _ _ ?_ (ih (ht.2 _ _ hd))
    rcases hd with hd | ⟨-, rfl⟩
    · have := hcall c s ht.1
      rwa [hd] at this
    · exact hrefl _

end Meets

/-! Counting along an execution. -/

/-- A device that only keeps accounts: it answers in every way `may` allows, and
charges each answered call. -/
def meter (may : (c : C) → Except φ (R c) → Prop) (charge : σ → CallEvent R φ → σ) :
    Device R φ σ := fun c s x s' => may c x ∧ s' = charge s ⟨c, x⟩

/-- What any device does whose answers `may` allows, the accounts follow. -/
theorem Exec.metered {τ : Type} {D : Device R φ σ} {may : (c : C) → Except φ (R c) → Prop}
    (hmay : ∀ c s x s', D c s x s' → may c x) (charge : τ → CallEvent R φ → τ)
    {t : CallTree R φ ε α} {s s' : σ} {es : List (CallEvent R φ)} {r : Except ε α}
    (he : Exec D t s es r s') (a : τ) : Exec (meter may charge) t a es r (es.foldl charge a) := by
  induction he generalizing a with
  | ret => exact .ret
  | call hd _ ih => exact .call ⟨hmay _ _ _ _ hd, rfl⟩ (ih _)

/-! Trees that fail only where a call fails. -/

/-- Every call is one of `may`, and as long as calls get replies the tree goes on
and ends with a value. -/
def Steady (may : C → Prop) : CallTree R φ ε α → Prop
  | .ret r => ∃ a, r = .ok a
  | .call c k => may c ∧ ∀ a, Steady may (k (.ok a))

namespace Steady
variable {may : C → Prop}

theorem pure (a : α) : Steady may (Pure.pure a : CallTree R φ ε α) := ⟨a, rfl⟩

theorem bind {t : CallTree R φ ε α} {f : α → CallTree R φ ε β} (ht : Steady may t)
    (hf : ∀ a, Steady may (f a)) : Steady may (t >>= f) := by
  induction t with
  | ret r =>
    obtain ⟨a, rfl⟩ := ht
    exact hf a
  | call c k ih => exact ⟨ht.1, fun a => ih (.ok a) (ht.2 a)⟩

theorem ask_bind {c : C} {wrap : φ → ε} {f : R c → CallTree R φ ε β} (hc : may c)
    (hf : ∀ a, Steady may (f a)) : Steady may (ask c wrap >>= f) := ⟨hc, hf⟩

/-- On a device that never fails such a tree returns, and what its calls keep
holds across it. -/
theorem eval {h : Handler R φ σ} {t : CallTree R φ ε α} {s : σ} (ht : Steady may t)
    (hok : ∀ c s, ∃ a, (h c s).1 = .ok a) {Rel : σ → σ → Prop} (hrefl : ∀ s, Rel s s)
    (htrans : ∀ s s' s'', Rel s s' → Rel s' s'' → Rel s s'')
    (hcall : ∀ c s, may c → Rel s (h c s).2) :
    (∃ v, (CallTree.eval h t s).1 = .ok v) ∧ Rel s (CallTree.eval h t s).2 := by
  induction t generalizing s with
  | ret r => exact ⟨ht, hrefl s⟩
  | call c k ih =>
    obtain ⟨a, ha⟩ := hok c s
    obtain ⟨hv, hrel⟩ := ih (.ok a) (ht.2 a) (s := (h c s).2)
    unfold CallTree.eval
    rw [ha]
    exact ⟨hv, htrans _ _ _ (hcall c s ht.1) hrel⟩

end Steady

/-! Trees that make only certain calls. -/

/-- As long as calls get replies, every call is one of `may`. -/
def Only (may : C → Prop) : CallTree R φ ε α → Prop
  | .ret _ => True
  | .call c k => may c ∧ ∀ a, Only may (k (.ok a))

namespace Only
variable {may : C → Prop}

theorem bind {t : CallTree R φ ε α} {f : α → CallTree R φ ε β} (ht : Only may t)
    (hf : ∀ a, Only may (f a)) : Only may (t >>= f) := by
  induction t with
  | ret r =>
    cases r with
    | ok a => exact hf a
    | error e => trivial
  | call c k ih => exact ⟨ht.1, fun a => ih (.ok a) (ht.2 a)⟩

theorem ask {c : C} {wrap : φ → ε} (hc : may c) :
    Only may (CallTree.ask c wrap : CallTree R φ ε (R c)) := ⟨hc, fun _ => trivial⟩

/-- Two devices that answer these calls alike, in states that the calls keep, evaluate
the tree alike. -/
theorem eval_eq {h h' : Handler R φ σ} {P : σ → Prop}
    (halike : ∀ c s, may c → P s → h' c s = h c s ∧ (∃ a, (h c s).1 = .ok a) ∧ P (h c s).2)
    {t : CallTree R φ ε α} {s : σ} (ht : Only may t) (hs : P s) :
    eval h' t s = eval h t s ∧ P (eval h t s).2 := by
  induction t generalizing s with
  | ret r => exact ⟨rfl, hs⟩
  | call c k ih =>
    obtain ⟨heq, ⟨a, ha⟩, hP⟩ := halike c s ht.1 hs
    unfold eval
    rw [heq, ha]
    exact ih (.ok a) (ht.2 a) hP

end Only

theorem Steady.only {may may' : C → Prop} (hmay : ∀ c, may c → may' c) {t : CallTree R φ ε α}
    (ht : Steady may t) : Only may' t := by
  induction t with
  | ret r => trivial
  | call c k ih => exact ⟨hmay c ht.1, fun a => ih (.ok a) (ht.2 a)⟩

/-! Trees that end at the first call that fails. -/

/-- Whatever call fails, the tree ends there, with one of the errors `fault`. -/
def Strict (fault : ε → Prop) : CallTree R φ ε α → Prop
  | .ret _ => True
  | .call _ k => (∀ f, ∃ e, k (.error f) = .ret (.error e) ∧ fault e) ∧ ∀ a, Strict fault (k (.ok a))

namespace Strict
variable {fault : ε → Prop}

theorem bind {t : CallTree R φ ε α} {f : α → CallTree R φ ε β} (ht : Strict fault t)
    (hf : ∀ a, Strict fault (f a)) : Strict fault (t >>= f) := by
  induction t with
  | ret r =>
    cases r with
    | ok a => exact hf a
    | error e => trivial
  | call c k ih =>
    refine ⟨fun f' => ?_, fun a => ih (.ok a) (ht.2 a)⟩
    obtain ⟨e, he, hfault⟩ := ht.1 f'
    refine ⟨e, ?_, hfault⟩
    show CallTree.bind (k (.error f')) f = _
    rw [he]
    rfl

theorem ask {c : C} {wrap : φ → ε} (hwrap : ∀ f, fault (wrap f)) :
    Strict fault (CallTree.ask c wrap : CallTree R φ ε (R c)) :=
  ⟨fun f => ⟨wrap f, rfl, hwrap f⟩, fun _ => trivial⟩

/-- An execution of a strict tree is the evaluation, or a failed call has ended it. -/
theorem exec {h : Handler R φ σ} {t : CallTree R φ ε α} {s s' : σ} {es : List (CallEvent R φ)}
    {r : Except ε α} (ht : Strict fault t) (he : Exec h.faulty t s es r s') :
    eval h t s = (r, s') ∨ ∃ e, r = .error e ∧ fault e := by
  induction he with
  | ret => exact .inl rfl
  | @call c k s s₁ s₂ x es r hd hrest ih =>
    cases x with
    | error f =>
      obtain ⟨e, hk, hfault⟩ := ht.1 f
      rw [hk] at hrest
      cases hrest
      exact .inr ⟨e, rfl, hfault⟩
    | ok a =>
      rcases hd with hd | ⟨⟨f, hf⟩, -⟩
      · refine (ih (ht.2 a)).imp_left fun hev => ?_
        show eval h (k (h c s).1) (h c s).2 = _
        rw [hd]
        exact hev
      · cases hf

end Strict

/-! Trees that read first and mutate last. -/

section Atomic
variable (mutates : C → Bool)

/-- No call of the tree mutates. -/
def ReadOnly : CallTree R φ ε α → Prop
  | .ret _ => True
  | .call c k => mutates c = false ∧ ∀ x, ReadOnly (k x)

/-- The tree reads until one mutating call, and ends there: with a value if that
call got a reply, with an error if it failed. -/
def OneShot : CallTree R φ ε α → Prop
  | .ret _ => True
  | .call c k =>
    if mutates c then
      (∀ a, ∃ v, k (.ok a) = .ret (.ok v)) ∧ (∀ f, ∃ e, k (.error f) = .ret (.error e))
    else ∀ x, OneShot (k x)

/-- Reads leave the state alone, and so does a mutating call that fails. -/
structure Atomic (D : Device R φ σ) : Prop where
  read : ∀ c s x s', mutates c = false → D c s x s' → s' = s
  failed : ∀ c s f s', D c s (.error f) s' → s' = s

variable {mutates}

theorem readOnly_ask {c : C} {wrap : φ → ε} (hc : mutates c = false) :
    ReadOnly mutates (ask c wrap : CallTree R φ ε (R c)) := by
  refine ⟨hc, ?_⟩
  intro x
  cases x <;> trivial

theorem ReadOnly.only {may : C → Prop} (hmay : ∀ c, mutates c = false → may c)
    {t : CallTree R φ ε α} (ht : ReadOnly mutates t) : Only may t := by
  induction t with
  | ret r => trivial
  | call c k ih => exact ⟨hmay c ht.1, fun a => ih (.ok a) (ht.2 (.ok a))⟩

theorem ReadOnly.bind {t : CallTree R φ ε α} {f : α → CallTree R φ ε β}
    (ht : ReadOnly mutates t) (hf : ∀ a, ReadOnly mutates (f a)) : ReadOnly mutates (t >>= f) := by
  induction t with
  | ret r =>
    cases r with
    | ok a => exact hf a
    | error e => trivial
  | call c k ih => exact ⟨ht.1, fun x => ih x (ht.2 x)⟩

theorem OneShot.bind {t : CallTree R φ ε α} {f : α → CallTree R φ ε β}
    (ht : ReadOnly mutates t) (hf : ∀ a, OneShot mutates (f a)) : OneShot mutates (t >>= f) := by
  induction t with
  | ret r =>
    cases r with
    | ok a => exact hf a
    | error e => trivial
  | call c k ih =>
    have hb : ∀ x, OneShot mutates (k x >>= f) := fun x => ih x (ht.2 x)
    show OneShot mutates (CallTree.call c fun x => k x >>= f)
    simp only [OneShot, ht.1, Bool.false_eq_true, if_false]
    exact hb

/-- A tree that only reads leaves an atomic device as it was. -/
theorem ReadOnly.exec {D : Device R φ σ} (hD : Atomic mutates D) {t : CallTree R φ ε α} {s s' : σ}
    {es : List (CallEvent R φ)} {r : Except ε α} (ht : ReadOnly mutates t) (he : Exec D t s es r s') :
    s' = s := by
  induction he with
  | ret => rfl
  | call hd _ ih => exact (ih (ht.2 _)).trans (hD.read _ _ _ _ ht.1 hd)

/-- The last call of a one-shot tree: any call, after which the tree returns. -/
theorem oneShot_last {c : C} {wrap : φ → ε} {f : R c → α} :
    OneShot mutates (ask c wrap >>= fun a => (pure (f a) : CallTree R φ ε α)) := by
  show OneShot mutates (CallTree.call c _)
  unfold OneShot
  split
  · exact ⟨fun a => ⟨f a, rfl⟩, fun e => ⟨wrap e, rfl⟩⟩
  · intro x
    cases x <;> trivial

/-- An execution of a one-shot tree on an atomic device: an error leaves the
state as it was; there is at most one mutating call and it is the last one made;
and the tree returns a value whenever that call got a reply. -/
theorem OneShot.exec {D : Device R φ σ} (hD : Atomic mutates D) {t : CallTree R φ ε α} {s s' : σ}
    {es : List (CallEvent R φ)} {r : Except ε α} (ht : OneShot mutates t) (he : Exec D t s es r s') :
    (∀ e, r = .error e → s' = s) ∧
    es.countP (fun ev => mutates ev.1) ≤ 1 ∧
    (∀ i (hi : i < es.length), mutates es[i].1 = true → i + 1 = es.length) ∧
    (∀ ev ∈ es, mutates ev.1 = true → (∃ a, ev.2 = .ok a) → ∃ v, r = .ok v) := by
  induction he with
  | ret => simp
  | @call c k s s₁ s₂ x es r hd hrest ih =>
    -- a call that only reads leaves the state; one that mutates is the last
    cases hm : mutates c with
    | false =>
      simp only [OneShot, hm, Bool.false_eq_true, if_false] at ht
      obtain ⟨h1, hone, h2, h3⟩ := ih (ht x)
      have hs : s₁ = s := hD.read c s x s₁ hm hd
      refine ⟨fun e hr => (h1 e hr).trans hs, by simpa [hm] using hone, ?_, ?_⟩
      · intro i hi hmut
        cases i with
        | zero => simp [hm] at hmut
        | succ i =>
          have hlt : i < es.length := by simpa using hi
          have := h2 i hlt (by simpa using hmut)
          simp [this]
      · intro ev hev hmut hok
        rcases List.mem_cons.mp hev with rfl | hev
        · rw [hm] at hmut; cases hmut
        · exact h3 ev hev hmut hok
    | true =>
      simp only [OneShot, hm, if_true] at ht
      cases x with
      | ok a =>
        obtain ⟨v, hv⟩ := ht.1 a
        rw [hv] at hrest
        cases hrest
        simp [hm]
      | error f =>
        obtain ⟨e, he⟩ := ht.2 f
        rw [he] at hrest
        cases hrest
        have hs : s₁ = s := hD.failed c s f s₁ hd
        simp [hs, hm]

end Atomic

end CallTree
