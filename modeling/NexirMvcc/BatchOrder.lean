import NexirMvcc.Batches
import NexirMvcc.Foundation.StableSort

/- Direct and guarded batches in the order of their commit timestamps. A batch is
   checked against the state it is applied to, and only the versions of a single
   key are ordered; so the order in which batches are applied need not be that of
   their timestamps. Replayed in timestamp order, every direct batch succeeds
   again. A guarded batch may not: a batch applied after it may have written one
   of its guarded keys at a lower timestamp. It succeeds again exactly if its
   guards stand in the final state, below its timestamp. -/
namespace NexirMvcc
open VersionHistory StepRun StableSort

/-! Batch calls. -/

/-- A call of `apply_direct_batch` or `apply_guarded_batch`. -/
inductive BatchCall where
  | direct (commitTs : Timestamp) (writes : List PhysicalWrite)
  | guarded (commitTs : Timestamp) (guards : List ReadGuard) (writes : List PhysicalWrite)
  deriving DecidableEq

namespace BatchCall

def op : BatchCall → Op
  | .direct commitTs writes => .applyDirectBatch commitTs writes
  | .guarded commitTs guards writes => .applyGuardedBatch commitTs guards writes

def commitTs : BatchCall → Timestamp
  | .direct commitTs _ => commitTs
  | .guarded commitTs _ _ => commitTs

def guards : BatchCall → List ReadGuard
  | .direct _ _ => []
  | .guarded _ guards _ => guards

def writes : BatchCall → List PhysicalWrite
  | .direct _ writes => writes
  | .guarded _ _ writes => writes

def exec (x : BatchCall) (b : InMemoryBackend) : Result × InMemoryBackend := x.op.exec b

/-- What does not depend on the state a batch is applied to. -/
def WellFormed : BatchCall → Prop
  | .direct _ writes => writes ≠ [] ∧ (writes.map (·.key)).Nodup
  | .guarded _ guards writes => writes ≠ [] ∧ guards ≠ [] ∧ (writes.map (·.key)).Nodup

variable {x : BatchCall} {b : InMemoryBackend}

theorem isOk_iff : (x.exec b).1.isOk = true ↔ x.WellFormed ∧
    (∀ g ∈ x.guards, g.Holds b x.commitTs) ∧ ∀ w ∈ x.writes, Writable b x.commitTs w.key := by
  cases x with
  | direct commitTs writes =>
    refine applyDirectBatch_isOk.trans ?_
    simp [WellFormed, BatchCall.guards, BatchCall.writes, BatchCall.commitTs, and_assoc]
  | guarded commitTs guards writes =>
    refine applyGuardedBatch_isOk.trans ?_
    simp only [WellFormed, BatchCall.guards, BatchCall.writes, BatchCall.commitTs, and_assoc]

theorem exec_writes (hok : (x.exec b).1.isOk = true) :
    Writes b (x.exec b).2 x.commitTs x.guards x.writes := by
  cases x with
  | direct commitTs writes => exact exec_ok (.applyDirectBatch commitTs writes) hok
  | guarded commitTs guards writes => exact exec_ok (.applyGuardedBatch commitTs guards writes) hok

end BatchCall

/-- The calls of a run from `b` that succeed, in their order. -/
def succeeded (b : InMemoryBackend) : List BatchCall → List BatchCall
  | [] => []
  | x :: xs =>
    if (x.exec b).1.isOk then x :: succeeded (x.exec b).2 xs else succeeded (x.exec b).2 xs

/-- The committed versions of `b` are those written by the calls of `L`. -/
structure Logged (L : List BatchCall) (b : InMemoryBackend) : Prop where
  built : Buildable b
  unlocked : ∀ k, b.getIntent k = none
  versions : ∀ k t v, b.history k t = some v ↔ ∃ x ∈ L, x.commitTs = t ∧ ⟨k, v⟩ ∈ x.writes

section Logged
variable {L S : List BatchCall} {b : InMemoryBackend} {x : BatchCall}

theorem Logged.new : Logged [] .new := by
  refine ⟨.new, fun k => rfl, fun k t v => ?_⟩
  simp [InMemoryBackend.new, InMemoryBackend.history]

theorem Logged.mem_dom (h : Logged L b) {k : Key} {t : Timestamp} :
    t ∈ dom (b.history k) ↔ ∃ x ∈ L, x.commitTs = t ∧ ∃ w ∈ x.writes, w.key = k := by
  rw [VersionHistory.mem_dom]
  constructor
  · rintro ⟨v, hv⟩
    obtain ⟨x, hx, ht, hw⟩ := (h.versions k t v).mp hv
    exact ⟨x, hx, ht, _, hw, rfl⟩
  · rintro ⟨x, hx, ht, w, hw, rfl⟩
    exact ⟨w.value, (h.versions w.key t w.value).mpr ⟨x, hx, ht, hw⟩⟩

/-- A call that succeeds adds its writes. -/
theorem Logged.step (h : Logged L b) (hok : (x.exec b).1.isOk = true) :
    Logged (L ++ [x]) (x.exec b).2 := by
  have hw := BatchCall.exec_writes hok
  refine ⟨x.op.exec_buildable h.built, fun k => (hw.intents k).trans (h.unlocked k), ?_⟩
  intro k t v
  simp only [List.mem_append, List.mem_singleton, or_and_right, exists_or, exists_eq_left,
    ← h.versions]
  by_cases hk : k ∈ x.writes.map (·.key)
  · obtain ⟨w, hmem, rfl⟩ := List.mem_map.mp hk
    rw [hw.here w hmem]
    have hlt := (hw.writable w hmem).2
    have hval : ⟨w.key, v⟩ ∈ x.writes ↔ v = w.value := by
      constructor
      · intro hv
        have he := List.inj_on_of_nodup_map hw.nodup hv hmem rfl
        rw [← he]
      · rintro rfl
        exact hmem
    by_cases ht : t = x.commitTs
    -- the new version is above all that the key had
    · have hnone : b.history w.key t = none := by
        refine not_mem_dom.mp fun hd => ?_
        rw [ht] at hd
        exact lt_irrefl _ (hlt _ hd)
      rw [hnone, hval, ht, Function.update_self]
      simp [eq_comm]
    · rw [Function.update_of_ne ht]
      simp [Ne.symm ht]
  · rw [hw.off k hk]
    have hnot : ⟨k, v⟩ ∉ x.writes := fun hv => hk (List.mem_map_of_mem hv)
    simp [hnot]

theorem Logged.refused (h : Logged L b) (hno : (x.exec b).1.isOk = false) : Logged L (x.exec b).2 := by
  rwa [show (x.exec b).2 = b from exec_error x.op hno]

theorem Logged.run (h : Logged L b) (xs : List BatchCall) :
    Logged (L ++ succeeded b xs) (final BatchCall.exec b xs) := by
  induction xs generalizing b L with
  | nil => rwa [succeeded, List.append_nil]
  | cons x xs ih =>
    unfold succeeded
    split
    · next hok =>
      have hnext := ih (h.step hok)
      rwa [List.append_assoc] at hnext
    · next hno => exact ih (h.refused (by simpa using hno))

/-- A call that succeeded did so in the state logged by those before it. -/
theorem Logged.split (h : Logged L b) {xs S₁ S₂ : List BatchCall}
    (hs : succeeded b xs = S₁ ++ x :: S₂) :
    ∃ b₁, Logged (L ++ S₁) b₁ ∧ (x.exec b₁).1.isOk = true := by
  induction xs generalizing b L S₁ with
  | nil =>
    unfold succeeded at hs
    simp at hs
  | cons y ys ih =>
    unfold succeeded at hs
    split at hs
    · next hok =>
      cases S₁ with
      | nil =>
        obtain ⟨rfl, -⟩ := List.cons.inj hs
        exact ⟨b, by rwa [List.append_nil], hok⟩
      | cons z S₁ =>
        obtain ⟨rfl, htail⟩ := List.cons.inj hs
        obtain ⟨b₁, hb₁, hok₁⟩ := ih (h.step hok) htail
        exact ⟨b₁, by rwa [List.append_assoc] at hb₁, hok₁⟩
    · next hno => exact ih (h.refused (by simpa using hno)) hs

/-- A run in which every call succeeds. -/
theorem succeeded_of_all {xs : List BatchCall}
    (h : ∀ s ∈ trace BatchCall.exec b xs, s.result.isOk = true) : succeeded b xs = xs := by
  induction xs generalizing b with
  | nil => rfl
  | cons x xs ih =>
    obtain ⟨hx, hxs⟩ := List.forall_mem_cons.mp h
    have hx : (x.exec b).1.isOk = true := hx
    unfold succeeded
    rw [if_pos hx, ih hxs]

/-- If each call succeeds in every state logged by those before it, all do. -/
theorem Logged.all_ok (h : Logged L b) {xs : List BatchCall}
    (hok : ∀ P x R, xs = P ++ x :: R → ∀ b', Logged (L ++ P) b' → (x.exec b').1.isOk = true) :
    ∀ s ∈ trace BatchCall.exec b xs, s.result.isOk = true := by
  induction xs generalizing b L with
  | nil => simp [trace]
  | cons x xs ih =>
    have hx : (x.exec b).1.isOk = true := hok [] x xs rfl b (by rwa [List.append_nil])
    refine List.forall_mem_cons.mpr ⟨hx, ih (h.step hx) ?_⟩
    intro P y R he b' hb'
    rw [List.append_assoc] at hb'
    exact hok (x :: P) y R (by rw [he]; rfl) b' hb'

end Logged

/-! Guards against the final state. -/

/-- The guard, checked in `b` as if its versions ended below `commitTs`. -/
def ReadGuard.Stands (b : InMemoryBackend) (commitTs : Timestamp) (g : ReadGuard) : Prop :=
  (∀ t ∈ dom (b.history g.key), t < commitTs → t ≤ g.readTs) ∧
    g.verdict (b.getVisibleCommitted g.key g.readTs) = .ok ()

theorem holds_iff_stands {b b' : InMemoryBackend} {g : ReadGuard} {commitTs : Timestamp}
    (hr : g.readTs < commitTs) (hfree : b.getIntent g.key = none)
    (hh : ∀ t v, b.history g.key t = some v ↔ b'.history g.key t = some v ∧ t < commitTs) :
    g.Holds b commitTs ↔ g.Stands b' commitTs := by
  have hdom : ∀ t, t ∈ dom (b.history g.key) ↔ t ∈ dom (b'.history g.key) ∧ t < commitTs := by
    intro t
    simp only [mem_dom, hh, exists_and_right]
  have hvis : b.getVisibleCommitted g.key g.readTs = b'.getVisibleCommitted g.key g.readTs := by
    refine getVisibleCommitted_of_le fun t ht => Option.ext fun v => ?_
    rw [hh t v, and_iff_left (ht.trans_lt hr)]
  unfold ReadGuard.Holds ReadGuard.Stands
  rw [hvis]
  simp only [hr, hfree, true_and, hdom, and_imp]

/-! The replay. -/

/-- The successful calls in the order of their commit timestamps. -/
def inCommitOrder (xs : List BatchCall) : List BatchCall :=
  sortOn BatchCall.commitTs (succeeded .new xs)

/-- The call `x` is above what `o` wrote to the keys that `x` writes or guards. -/
def Precedes (o x : BatchCall) : Prop :=
  (∀ w ∈ o.writes, ∀ w' ∈ x.writes, w.key = w'.key → o.commitTs < x.commitTs) ∧
    ∀ w ∈ o.writes, ∀ g ∈ x.guards, w.key = g.key → o.commitTs < x.commitTs

/-- No call writes a guarded key of an earlier one below the timestamp of that. -/
def NoLateWrites (xs : List BatchCall) : Prop :=
  xs.Pairwise fun x o => ∀ g ∈ x.guards, ∀ w ∈ o.writes, w.key = g.key → x.commitTs ≤ o.commitTs

section Replay
variable {xs : List BatchCall} {x : BatchCall}

theorem precedes_succeeded (xs : List BatchCall) : (succeeded .new xs).Pairwise Precedes := by
  refine pairwise_of_split fun S₁ x S₂ hs o ho => ?_
  obtain ⟨b, hb, hok⟩ := Logged.new.split hs
  obtain ⟨-, hguards, hwrites⟩ := BatchCall.isOk_iff.mp hok
  constructor
  · intro w hw w' hw' hk
    exact (hwrites w' hw').2 _ (hb.mem_dom.mpr ⟨o, ho, rfl, w, hw, hk⟩)
  · intro w hw g hg hk
    obtain ⟨hr, -, hle, -⟩ := hguards g hg
    exact (hle _ (hb.mem_dom.mpr ⟨o, ho, rfl, w, hw, hk⟩)).trans_lt hr

theorem mem_inCommitOrder : x ∈ inCommitOrder xs ↔ x ∈ succeeded .new xs :=
  (perm_sortOn _ _).mem_iff

/-- The order of the replay agrees with that of the run where calls meet on a key. -/
theorem before_in_order {P R : List BatchCall} {o : BatchCall} (hP : inCommitOrder xs = P ++ x :: R)
    (ho : o ∈ P) : o.commitTs ≤ x.commitTs ∧ Precedes o x := by
  have hpair := pairwise_sortOn (f := BatchCall.commitTs) (precedes_succeeded xs)
  rw [show sortOn _ _ = _ from hP] at hpair
  obtain ⟨hle, heq⟩ := (List.pairwise_append.mp hpair).2.2 o ho x List.mem_cons_self
  refine ⟨hle, ?_⟩
  -- calls at one timestamp keep the order of the run
  rcases hle.eq_or_lt with he | hlt
  · exact heq he
  · exact ⟨fun _ _ _ _ _ => hlt, fun _ _ _ _ _ => hlt⟩

/-- A call in the replay finds of a key exactly the final versions below it, if
those of its own timestamp come after. -/
theorem history_in_order {P R : List BatchCall} {b b' : InMemoryBackend} {k : Key}
    (hP : inCommitOrder xs = P ++ x :: R) (hb : Logged P b) (hb' : Logged (succeeded .new xs) b')
    (hlt : ∀ o ∈ P, ∀ w ∈ o.writes, w.key = k → o.commitTs < x.commitTs) (t : Timestamp)
    (v : Option Value) :
    b.history k t = some v ↔ b'.history k t = some v ∧ t < x.commitTs := by
  rw [hb.versions, hb'.versions]
  constructor
  · rintro ⟨o, ho, rfl, hw⟩
    have hmem : o ∈ inCommitOrder xs := by rw [hP]; exact List.mem_append_left _ ho
    exact ⟨⟨o, mem_inCommitOrder.mp hmem, rfl, hw⟩, hlt o ho _ hw rfl⟩
  · rintro ⟨⟨o, ho, rfl, hw⟩, hbelow⟩
    have hmem : o ∈ P ++ x :: R := by rw [← hP]; exact mem_inCommitOrder.mpr ho
    -- `o` comes before `x`, is `x`, or comes after it
    rcases List.mem_append.mp hmem with ho | ho
    · exact ⟨o, ho, rfl, hw⟩
    rcases List.mem_cons.mp ho with rfl | ho
    · exact absurd hbelow (lt_irrefl _)
    · obtain ⟨R₁, R₂, rfl⟩ := List.append_of_mem ho
      have hP' : inCommitOrder xs = (P ++ x :: R₁) ++ o :: R₂ := by rw [hP]; simp
      exact absurd hbelow (before_in_order hP' (by simp)).1.not_gt

/-- A call in the replay succeeds exactly if its guards stand in the final state. -/
theorem isOk_in_order {P R : List BatchCall} {b b' : InMemoryBackend}
    (hP : inCommitOrder xs = P ++ x :: R) (hb : Logged P b) (hb' : Logged (succeeded .new xs) b') :
    (x.exec b).1.isOk = true ↔ ∀ g ∈ x.guards, g.Stands b' x.commitTs := by
  have hmem : x ∈ succeeded .new xs := mem_inCommitOrder.mp (by rw [hP]; simp)
  obtain ⟨S₁, S₂, hs⟩ := List.append_of_mem hmem
  obtain ⟨b₁, -, hok₁⟩ := Logged.new.split hs
  obtain ⟨hwf, hguards₁, -⟩ := BatchCall.isOk_iff.mp hok₁
  have hguard : ∀ g ∈ x.guards, g.Holds b x.commitTs ↔ g.Stands b' x.commitTs := by
    intro g hg
    refine holds_iff_stands (hguards₁ g hg).1 (hb.unlocked g.key) (history_in_order hP hb hb' ?_)
    exact fun o ho w hw hk => (before_in_order hP ho).2.2 w hw g hg hk
  rw [BatchCall.isOk_iff]
  constructor
  · exact fun ⟨_, hg, _⟩ g hmem => (hguard g hmem).mp (hg g hmem)
  · intro hstands
    refine ⟨hwf, fun g hg => (hguard g hg).mpr (hstands g hg), fun w hw => ⟨hb.unlocked w.key, ?_⟩⟩
    intro t ht
    obtain ⟨o, ho, rfl, w', hw', hk⟩ := hb.mem_dom.mp ht
    exact (before_in_order hP ho).2.1 w' hw' w hw hk

/-- Without late writes the guards stand: each finds what it found. -/
theorem NoLateWrites.stands (h : NoLateWrites (succeeded .new xs)) {b' : InMemoryBackend}
    (hb' : Logged (succeeded .new xs) b') (hx : x ∈ succeeded .new xs) {g : ReadGuard}
    (hg : g ∈ x.guards) : g.Stands b' x.commitTs := by
  obtain ⟨S₁, S₂, hs⟩ := List.append_of_mem hx
  obtain ⟨b, hb, hok⟩ := Logged.new.split hs
  obtain ⟨-, hguards, -⟩ := BatchCall.isOk_iff.mp hok
  have hholds := hguards g hg
  obtain ⟨hr, -, hle, -⟩ := id hholds
  refine (holds_iff_stands hr (hb.unlocked g.key) fun t v => ?_).mp hholds
  rw [List.nil_append] at hb
  rw [hb'.versions, hs]
  unfold NoLateWrites at h
  rw [hs] at h
  constructor
  · intro hv
    obtain ⟨o, ho, ht, hw⟩ := (hb.versions _ _ _).mp hv
    exact ⟨⟨o, List.mem_append_left _ ho, ht, hw⟩, (hle t (mem_dom.mpr ⟨v, hv⟩)).trans_lt hr⟩
  · rintro ⟨⟨o, ho, rfl, hw⟩, hlt⟩
    refine (hb.versions _ _ _).mpr ?_
    rcases List.mem_append.mp ho with ho | ho
    · exact ⟨o, ho, rfl, hw⟩
    rcases List.mem_cons.mp ho with rfl | ho
    · exact absurd hlt (lt_irrefl _)
    · have hlate := (List.pairwise_cons.mp (List.pairwise_append.mp h).2.1).1 o ho g hg _ hw rfl
      exact absurd hlt hlate.not_gt

end Replay

/-- The successful calls of a run of direct and guarded batches, replayed in the
order of their timestamps on an empty engine. All succeed again exactly if every
guard stands in the final state, and then the replay ends in that state. The
guards stand if no call writes a guarded key of an earlier one below its
timestamp. -/
theorem replay_in_commit_order (xs : List BatchCall) :
    ((∀ s ∈ trace BatchCall.exec .new (inCommitOrder xs), s.result.isOk = true) ↔
      ∀ x ∈ succeeded .new xs, ∀ g ∈ x.guards,
        g.Stands (final BatchCall.exec .new xs) x.commitTs) ∧
    ((∀ s ∈ trace BatchCall.exec .new (inCommitOrder xs), s.result.isOk = true) →
      final BatchCall.exec .new (inCommitOrder xs) = final BatchCall.exec .new xs) ∧
    (NoLateWrites (succeeded .new xs) → ∀ x ∈ succeeded .new xs, ∀ g ∈ x.guards,
      g.Stands (final BatchCall.exec .new xs) x.commitTs) := by
  have hfinal : Logged (succeeded .new xs) (final BatchCall.exec .new xs) := Logged.new.run xs
  refine ⟨⟨?_, ?_⟩, ?_, fun hlate x hx g hg => hlate.stands hfinal hx hg⟩
  -- each call of the replay, at its place in it
  · intro hall x hx
    obtain ⟨P, R, hP⟩ := List.append_of_mem (mem_inCommitOrder.mpr hx)
    obtain ⟨b, hb, hok⟩ := Logged.new.split ((succeeded_of_all hall).trans hP)
    exact (isOk_in_order hP hb hfinal).mp hok
  · intro hstands
    refine Logged.new.all_ok fun P x R hP b hb => (isOk_in_order hP hb hfinal).mpr ?_
    exact hstands x (mem_inCommitOrder.mp (by rw [hP]; simp))
  · intro hall
    have hreplay := Logged.new.run (inCommitOrder xs)
    rw [succeeded_of_all hall, List.nil_append] at hreplay
    -- both states hold the versions of the same calls
    refine hreplay.built.wf.ext hfinal.built.wf (fun k => ?_) fun k => ?_
    · funext t
      refine Option.ext fun v => ?_
      simp only [hreplay.versions, hfinal.versions, mem_inCommitOrder]
    · rw [hreplay.unlocked, hfinal.unlocked]

/-- A batch at 10 that is guarded on the absence of `[2]` at 5, and then a direct
batch that writes `[2]` at 3: both succeed, but not in the order of timestamps. -/
theorem replay_in_commit_order_fails :
    let xs : List BatchCall := [.guarded 10 [.expectedVersion [2] 5 none] [⟨[1], some [7]⟩],
      .direct 3 [⟨[2], some [8]⟩]]
    succeeded .new xs = xs ∧
      ¬ ∀ s ∈ trace BatchCall.exec .new (inCommitOrder xs), s.result.isOk = true := by
  decide +kernel

end NexirMvcc
