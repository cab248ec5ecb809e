import Mathlib

/- Runs of a deterministic system: `step a s` is the result of operation `a` in
   state `s` and the state it leaves. `trace` is the list of the steps of a run
   with the states around them, `final` the state the run ends in. The rules
   below prove an invariant of every run from what one step does, for a state
   that is accumulated beside the run, and for two runs of which one leaves out
   some of the operations. -/
namespace StepRun
variable {σ ι ω A : Type}

/-- One step of a run. -/
structure Step (σ ι ω : Type) where
  before : σ
  op : ι
  result : ω
  after : σ

variable (step : ι → σ → ω × σ)

def stepOf (s : σ) (a : ι) : Step σ ι ω := ⟨s, a, (step a s).1, (step a s).2⟩

def trace : σ → List ι → List (Step σ ι ω)
  | _, [] => []
  | s, a :: as => stepOf step s a :: trace (step a s).2 as

def final : σ → List ι → σ
  | s, [] => s
  | s, a :: as => final (step a s).2 as

theorem final_append (s : σ) (as bs : List ι) :
    final step s (as ++ bs) = final step (final step s as) bs := by
  induction as generalizing s with
  | nil => rfl
  | cons a as ih => exact ih (step a s).2

/-- A step of a run, by the operations before and after it. -/
theorem mem_trace {s : σ} {as : List ι} {x : Step σ ι ω} :
    x ∈ trace step s as ↔
      ∃ pre a post, as = pre ++ a :: post ∧ x = stepOf step (final step s pre) a := by
  induction as generalizing s with
  | nil => simp [trace]
  | cons a as ih =>
    simp only [trace, List.mem_cons, ih]
    constructor
    · rintro (rfl | ⟨pre, c, post, rfl, rfl⟩)
      · exact ⟨[], a, as, rfl, rfl⟩
      · exact ⟨a :: pre, c, post, rfl, rfl⟩
    · rintro ⟨_ | ⟨c, pre⟩, d, post, he, rfl⟩
      · obtain ⟨rfl, rfl⟩ := List.cons.inj he
        exact .inl rfl
      · obtain ⟨rfl, rfl⟩ := List.cons.inj he
        exact .inr ⟨pre, d, post, rfl, rfl⟩

variable {step}

/-- What each allowed step preserves holds at the end. -/
theorem final_inv {P : σ → Prop} {ok : ι → Prop} (hstep : ∀ s a, ok a → P s → P (step a s).2)
    {s : σ} {as : List ι} (hok : ∀ a ∈ as, ok a) (hs : P s) : P (final step s as) := by
  induction as generalizing s with
  | nil => exact hs
  | cons a as ih =>
    obtain ⟨ha, hok⟩ := List.forall_mem_cons.mp hok
    exact ih hok (hstep s a ha hs)

/-- Every state a run passes through satisfies what each step preserves. -/
theorem trace_inv {P : σ → Prop} (hstep : ∀ s a, P s → P (step a s).2) {s : σ} {as : List ι}
    (hs : P s) : (∀ x ∈ trace step s as, P x.before ∧ P x.after) ∧ P (final step s as) := by
  induction as generalizing s with
  | nil => exact ⟨by simp [trace], hs⟩
  | cons a as ih =>
    obtain ⟨htr, hfin⟩ := ih (hstep s a hs)
    refine ⟨?_, hfin⟩
    intro x hx
    rcases List.mem_cons.mp hx with rfl | hx
    · exact ⟨hs, hstep s a hs⟩
    · exact htr x hx

/-- A fact about an earlier step that every later step keeps, up to a step that
uses it. -/
theorem trace_keeps {I : σ → Prop} {Q : σ → Prop} {R : Step σ ι ω → Prop} {ok : ι → Prop}
    (hI : ∀ s a, ok a → I s → I (step a s).2) (hkeep : ∀ s a, ok a → I s → Q s → Q (step a s).2)
    (huse : ∀ s a, ok a → I s → Q s → R (stepOf step s a)) {s : σ} {as : List ι}
    (hok : ∀ a ∈ as, ok a) (hs : I s) (hQ : Q s) : ∀ x ∈ trace step s as, R x := by
  induction as generalizing s with
  | nil => simp [trace]
  | cons a as ih =>
    obtain ⟨ha, hok⟩ := List.forall_mem_cons.mp hok
    refine List.forall_mem_cons.mpr ⟨huse s a ha hs hQ, ?_⟩
    exact ih hok (hI s a ha hs) (hkeep s a ha hs hQ)

/-- Two steps of a run: what the earlier one establishes is kept and there for the
later one. -/
theorem trace_pairwise {I : σ → Prop} {Q : Step σ ι ω → σ → Prop}
    {R : Step σ ι ω → Step σ ι ω → Prop} {ok : ι → Prop}
    (hI : ∀ s a, ok a → I s → I (step a s).2)
    (hnew : ∀ s a, ok a → I s → Q (stepOf step s a) (step a s).2)
    (hkeep : ∀ x s a, ok a → I s → Q x s → Q x (step a s).2)
    (huse : ∀ x s a, ok a → I s → Q x s → R x (stepOf step s a)) {s : σ} {as : List ι}
    (hok : ∀ a ∈ as, ok a) (hs : I s) : (trace step s as).Pairwise R := by
  induction as generalizing s with
  | nil => exact List.Pairwise.nil
  | cons a as ih =>
    obtain ⟨ha, hok⟩ := List.forall_mem_cons.mp hok
    have hs' := hI s a ha hs
    refine List.pairwise_cons.mpr ⟨?_, ih hok hs'⟩
    exact trace_keeps hI (hkeep _) (huse _) hok hs' (hnew s a ha hs)

/-- A state accumulated beside the run: what each allowed step preserves of the
two together holds at the end. -/
theorem fold_inv {J : A → σ → Prop} {f : A → Step σ ι ω → A} {ok : ι → Prop}
    (hstep : ∀ acc s a, ok a → J acc s → J (f acc (stepOf step s a)) (step a s).2)
    {acc : A} {s : σ} {as : List ι} (hok : ∀ a ∈ as, ok a) (hs : J acc s) :
    J ((trace step s as).foldl f acc) (final step s as) := by
  induction as generalizing acc s with
  | nil => exact hs
  | cons a as ih =>
    have ha : ok a := hok a List.mem_cons_self
    exact ih (fun x hx => hok x (List.mem_cons_of_mem a hx)) (hstep acc s a ha hs)

/-! A statement about every operation of a list and those before it, read off the
list. -/

theorem forall_split_nil {P : List ι → ι → Prop} :
    (∀ pre x post, [] = pre ++ x :: post → P pre x) ↔ True := by
  simp

theorem forall_split_cons {P : List ι → ι → Prop} {a : ι} {as : List ι} :
    (∀ pre x post, a :: as = pre ++ x :: post → P pre x) ↔
      P [] a ∧ ∀ pre x post, as = pre ++ x :: post → P (a :: pre) x := by
  constructor
  · exact fun h => ⟨h [] a as rfl, fun pre x post he => h (a :: pre) x post (by rw [he]; rfl)⟩
  · rintro ⟨ha, h⟩ (_ | ⟨y, pre⟩) x post he
    · obtain ⟨rfl, rfl⟩ := List.cons.inj he
      exact ha
    · obtain ⟨rfl, rfl⟩ := List.cons.inj he
      exact h pre x post rfl

/-- The steps of a run that `watch` selects, with their results. -/
def observed (watch : ι → Bool) (tr : List (Step σ ι ω)) : List (ι × ω) :=
  (tr.filter fun x => watch x.op).map fun x => (x.op, x.result)

/-- Two runs, the second without the operations that `keep` refuses. If the kept
operations leave related states related and the watched ones among them answer
alike, and the others leave the relation alone, then the two runs cannot be told
apart by what is watched. The relation may depend on the operations done so far. -/
theorem erase_sim {keep watch : ι → Bool} {ops : List ι} {R : List ι → σ → σ → Prop}
    (hkeep : ∀ pre a post s t, ops = pre ++ a :: post → keep a = true → R pre s t →
      (watch a = true → (step a s).1 = (step a t).1) ∧
        R (pre ++ [a]) (step a s).2 (step a t).2)
    (hdrop : ∀ pre a post s t, ops = pre ++ a :: post → keep a = false → R pre s t →
      watch a = false ∧ R (pre ++ [a]) (step a s).2 t)
    {s t : σ} (hR : R [] s t) :
    observed watch (trace step s ops) = observed watch (trace step t (ops.filter keep)) ∧
    R ops (final step s ops) (final step t (ops.filter keep)) := by
  -- on the operations still to be done
  have hrest : ∀ as pre s t, ops = pre ++ as → R pre s t →
      observed watch (trace step s as) = observed watch (trace step t (as.filter keep)) ∧
      R ops (final step s as) (final step t (as.filter keep)) := by
    intro as
    induction as with
    | nil =>
      intro pre s t hops hR
      rw [List.append_nil] at hops
      exact ⟨rfl, hops ▸ hR⟩
    | cons a as ih =>
      intro pre s t hops hR
      have hops' : ops = (pre ++ [a]) ++ as := by rw [hops, List.append_assoc]; rfl
      cases hk : keep a with
      | true =>
        obtain ⟨hres, hR'⟩ := hkeep pre a as s t hops hk hR
        obtain ⟨htr, hfin⟩ := ih (pre ++ [a]) _ _ hops' hR'
        rw [List.filter_cons_of_pos hk]
        refine ⟨?_, hfin⟩
        unfold observed at htr ⊢
        simp only [trace, stepOf, List.filter_cons]
        split
        · next hw => rw [List.map_cons, List.map_cons, htr, hres hw]
        · exact htr
      | false =>
        obtain ⟨hw, hR'⟩ := hdrop pre a as s t hops hk hR
        obtain ⟨htr, hfin⟩ := ih (pre ++ [a]) _ _ hops' hR'
        rw [List.filter_cons_of_neg (by simp [hk])]
        refine ⟨?_, hfin⟩
        unfold observed at htr ⊢
        simp only [trace, stepOf, List.filter_cons, hw, Bool.false_eq_true, if_false]
        exact htr
  exact hrest ops [] s t rfl hR

/-! Systems whose steps can go several ways. -/

/-- `Path R s xs s'`: the steps `xs` are steps of `R` and lead from `s` to `s'`. -/
inductive Path (R : σ → ι → ω → σ → Prop) : σ → List (Step σ ι ω) → σ → Prop where
  | nil {s : σ} : Path R s [] s
  | cons {s s' s'' : σ} {a : ι} {r : ω} {xs : List (Step σ ι ω)} :
      R s a r s' → Path R s' xs s'' → Path R s (⟨s, a, r, s'⟩ :: xs) s''

/-- A run of a deterministic system is one. -/
theorem path_trace (step : ι → σ → ω × σ) (s : σ) (as : List ι) :
    Path (fun s a r s' => step a s = (r, s')) s (trace step s as) (final step s as) := by
  induction as generalizing s with
  | nil => exact .nil
  | cons a as ih => exact .cons rfl (ih (step a s).2)

theorem Path.mono {R R' : σ → ι → ω → σ → Prop} (h : ∀ s a r s', R s a r s' → R' s a r s')
    {s s' : σ} {xs : List (Step σ ι ω)} (hp : Path R s xs s') : Path R' s xs s' := by
  induction hp with
  | nil => exact .nil
  | cons hR _ ih => exact .cons (h _ _ _ _ hR) ih

/-- Two such systems: if the second one can follow every step of the first one, with the
same result, it can follow every run. -/
theorem Path.follow {τ : Type} {R : σ → ι → ω → σ → Prop} {R' : τ → ι → ω → τ → Prop}
    {J : σ → τ → Prop} (hstep : ∀ s t a r s', J s t → R s a r s' → ∃ t', R' t a r t' ∧ J s' t')
    {s s' : σ} {xs : List (Step σ ι ω)} (hp : Path R s xs s') {t : τ} (hJ : J s t) :
    ∃ ys t', Path R' t ys t' ∧
      ys.map (fun y => (y.op, y.result)) = xs.map (fun x => (x.op, x.result)) ∧ J s' t' := by
  induction hp generalizing t with
  | nil => exact ⟨[], t, .nil, rfl, hJ⟩
  | cons hR _ ih =>
    obtain ⟨t₁, hR', hJ₁⟩ := hstep _ _ _ _ _ hJ hR
    obtain ⟨ys, t₂, hp', hys, hJ₂⟩ := ih hJ₁
    exact ⟨_ :: ys, t₂, .cons hR' hp', by rw [List.map_cons, List.map_cons, hys], hJ₂⟩

/-- A run in which every step is the deterministic one. -/
theorem Path.eq_trace {step : ι → σ → ω × σ} {s s' : σ} {xs : List (Step σ ι ω)}
    (hp : Path (fun s a r s' => step a s = (r, s')) s xs s') :
    xs = trace step s (xs.map (·.op)) ∧ s' = final step s (xs.map (·.op)) := by
  induction hp with
  | nil => exact ⟨rfl, rfl⟩
  | @cons s s₁ s₂ a r xs hR _ ih =>
    obtain ⟨hxs, hs⟩ := ih
    simp only [List.map_cons, trace, final, stepOf, hR]
    exact ⟨by rw [← hxs], hs⟩

/-- A run of such a system beside a run of a deterministic one. `shown` gives the
operation of the second system, with its result, that a step stands for, or none.
If related states stay related, and the watched operations answer as shown, then
the second run answers what the first one shows. The relation may depend on the
steps done so far. -/
theorem Path.sim {σ' ι' ω' : Type} {R : σ → ι → ω → σ → Prop} {step' : ι' → σ' → ω' × σ'}
    {shown : Step σ ι ω → Option (ι' × ω')} {watch : ι' → Bool}
    {J : List (Step σ ι ω) → σ → σ' → Prop} {xs : List (Step σ ι ω)}
    (hshown : ∀ pre x post t a r, xs = pre ++ x :: post → R x.before x.op x.result x.after →
      J pre x.before t → shown x = some (a, r) →
      (watch a = true → (step' a t).1 = r) ∧ J (pre ++ [x]) x.after (step' a t).2)
    (hhidden : ∀ pre x post t, xs = pre ++ x :: post → R x.before x.op x.result x.after →
      J pre x.before t → shown x = none → J (pre ++ [x]) x.after t)
    {s s' : σ} {t : σ'} (hp : Path R s xs s') (hJ : J [] s t) :
    observed watch (trace step' t ((xs.filterMap shown).map Prod.fst)) =
      (xs.filterMap shown).filter (fun p => watch p.1) ∧
    J xs s' (final step' t ((xs.filterMap shown).map Prod.fst)) := by
  -- on the steps still to come
  have hrest : ∀ ys s pre t, xs = pre ++ ys → Path R s ys s' → J pre s t →
      observed watch (trace step' t ((ys.filterMap shown).map Prod.fst)) =
        (ys.filterMap shown).filter (fun p => watch p.1) ∧
      J xs s' (final step' t ((ys.filterMap shown).map Prod.fst)) := by
    intro ys
    induction ys with
    | nil =>
      intro s pre t hxs hp hJ
      cases hp
      rw [List.append_nil] at hxs
      exact ⟨rfl, hxs ▸ hJ⟩
    | cons x ys ih =>
      intro s pre t hxs hp hJ
      cases hp with
      | @cons _ s₁ _ a r _ hR hp =>
        let x : Step σ ι ω := ⟨s, a, r, s₁⟩
        have hxs' : xs = (pre ++ [x]) ++ ys := by rw [hxs, List.append_assoc]; rfl
        cases hx : shown x with
        | none =>
          rw [List.filterMap_cons_none hx]
          exact ih _ _ t hxs' hp (hhidden pre x ys t hxs hR hJ hx)
        | some p =>
          obtain ⟨a', r'⟩ := p
          obtain ⟨hres, hJ'⟩ := hshown pre x ys t a' r' hxs hR hJ hx
          obtain ⟨htr, hfin⟩ := ih _ _ _ hxs' hp hJ'
          rw [List.filterMap_cons_some hx]
          refine ⟨?_, hfin⟩
          unfold observed at htr ⊢
          simp only [List.map_cons, trace, stepOf, List.filter_cons]
          split
          · next hw => rw [List.map_cons, htr, hres hw]
          · exact htr
  exact hrest xs s [] t rfl hp hJ

end StepRun
