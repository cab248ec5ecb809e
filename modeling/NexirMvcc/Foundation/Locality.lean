import NexirMvcc.Foundation.StepRun

/- Steps that look at and change a part of the state only. The state is seen
   through `view`, key by key; a step is local to a set of keys if its result and
   the new view of these keys depend on the old view of these keys alone, and all
   other keys are left as they were. Local steps on disjoint sets do not disturb
   each other, so a run of them does to each key what its own step does to it in
   the first state, in whatever order they come. -/
namespace Locality
open StepRun
variable {σ κ ν ι ω : Type} {view : σ → κ → ν}

/-- The step `f` is local to the keys `K`. -/
structure Local (view : σ → κ → ν) (f : σ → ω × σ) (K : Set κ) : Prop where
  off : ∀ s, ∀ k ∉ K, view (f s).2 k = view s k
  result : ∀ s t, Set.EqOn (view s) (view t) K → (f s).1 = (f t).1
  here : ∀ s t, Set.EqOn (view s) (view t) K → Set.EqOn (view (f s).2) (view (f t).2) K

section Two
variable {f g : σ → ω × σ} {K L : Set κ}

/-- After a local step elsewhere the keys look the same. -/
theorem Local.eqOn (hg : Local view g L) (hd : Disjoint K L) (s : σ) :
    Set.EqOn (view (g s).2) (view s) K :=
  fun k hk => hg.off s k (Set.disjoint_left.mp hd hk)

theorem Local.result_after (hf : Local view f K) (hg : Local view g L) (hd : Disjoint K L) (s : σ) :
    (f (g s).2).1 = (f s).1 :=
  hf.result _ _ (hg.eqOn hd s)

theorem Local.here_after (hf : Local view f K) (hg : Local view g L) (hd : Disjoint K L) (s : σ) :
    Set.EqOn (view (f (g s).2).2) (view (f s).2) K :=
  hf.here _ _ (hg.eqOn hd s)

/-- Steps on disjoint keys commute, as far as the view goes. -/
theorem Local.comm (hf : Local view f K) (hg : Local view g L) (hd : Disjoint K L) (s : σ) :
    view (f (g s).2).2 = view (g (f s).2).2 := by
  funext k
  by_cases hk : k ∈ K
  · rw [hf.here_after hg hd s hk, hg.off _ k (Set.disjoint_left.mp hd hk)]
  · rw [hf.off _ k hk]
    by_cases hl : k ∈ L
    · rw [hg.here_after hf hd.symm s hl]
    · rw [hg.off _ k hl, hg.off _ k hl, hf.off _ k hk]

end Two

section Runs
variable {step : ι → σ → ω × σ} {keys : ι → Set κ} {as : List ι}

/-- In a run of local steps on disjoint keys each step returns what it returns in
the first state. -/
theorem result_trace (hl : ∀ a ∈ as, Local view (step a) (keys a))
    (hd : as.Pairwise fun a a' => Disjoint (keys a) (keys a')) (s : σ) :
    ∀ x ∈ trace step s as, x.op ∈ as ∧ x.result = (step x.op s).1 := by
  induction as generalizing s with
  | nil => simp [trace]
  | cons a as ih =>
    obtain ⟨ha, hl⟩ := List.forall_mem_cons.mp hl
    obtain ⟨hda, hd⟩ := List.pairwise_cons.mp hd
    refine List.forall_mem_cons.mpr ⟨⟨List.mem_cons_self, rfl⟩, ?_⟩
    intro x hx
    obtain ⟨hmem, hres⟩ := ih hl hd (step a s).2 x hx
    refine ⟨List.mem_cons_of_mem a hmem, ?_⟩
    rw [hres, (hl x.op hmem).result_after ha (hda x.op hmem).symm]

/-- Keys that no step is about stay as they were. -/
theorem view_final_off (hl : ∀ a ∈ as, Local view (step a) (keys a)) (s : σ) {k : κ}
    (hk : ∀ a ∈ as, k ∉ keys a) : view (final step s as) k = view s k := by
  induction as generalizing s with
  | nil => rfl
  | cons a as ih =>
    obtain ⟨ha, hl⟩ := List.forall_mem_cons.mp hl
    obtain ⟨hka, hk⟩ := List.forall_mem_cons.mp hk
    calc view (final step (step a s).2 as) k = view (step a s).2 k := ih hl _ hk
      _ = view s k := ha.off s k hka

/-- And the run does to the keys of each step what that step does to them there. -/
theorem view_final (hl : ∀ a ∈ as, Local view (step a) (keys a))
    (hd : as.Pairwise fun a a' => Disjoint (keys a) (keys a')) (s : σ) {a : ι} (ha : a ∈ as) :
    Set.EqOn (view (final step s as)) (view (step a s).2) (keys a) := by
  induction as generalizing s with
  | nil => cases ha
  | cons c as ih =>
    obtain ⟨hc, hrest⟩ := List.forall_mem_cons.mp hl
    obtain ⟨hdc, hd⟩ := List.pairwise_cons.mp hd
    intro k hk
    rcases List.mem_cons.mp ha with rfl | ha
    · exact view_final_off hrest _ fun b hb => Set.disjoint_left.mp (hdc b hb) hk
    · calc view (final step (step c s).2 as) k
          = view (step a (step c s).2).2 k := ih hrest hd _ ha hk
        _ = view (step a s).2 k := (hrest a ha).here_after hc (hdc a ha).symm s hk

end Runs

end Locality
