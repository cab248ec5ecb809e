import NexirMvcc.LoadSim

/- Read-modify-write by guarded batches (`examples/guarded_incr.rs`, the increments of
   `examples/command_load_sim.rs`), with any number of clients. A client reads a key, at
   whatever timestamp, computes a new value from the one it read, and writes it under an
   `ExpectedValue` guard; it may try again when the guard fails, or give up. Other keys
   are used in any way, and everything may be collected.

   As long as nothing else writes the key, its value is the function applied as often as
   a batch succeeded (`updates_run`): no update is lost, and none is made on a stale
   value. For counters, the key holds their number in decimal (`increments_counted`). -/
namespace NexirMvcc
open VersionHistory StepRun

/-- The keys that the effect writes. -/
def Effect.targets : Effect → List Key
  | .commit _ _ _ keys => keys
  | .write _ _ writes => writes.map (·.key)
  | _ => []

/-- The operation replaces the value `x` of `key` that it expects by `f x`. -/
def Op.Updates (f : Option Value → Value) (key : Key) (op : Op) : Prop :=
  ∃ commitTs guards writes readTs x, op = .applyGuardedBatch commitTs guards writes ∧
    ReadGuard.expectedValue key readTs x ∈ guards ∧ ⟨key, some (f x)⟩ ∈ writes

/-- The value of the latest version. -/
def latestValue (b : InMemoryBackend) (key : Key) : Option Value :=
  (b.getLatestCommitted key).bind (·.value)

/-- The step has written the key. -/
def updated (key : Key) (x : Step InMemoryBackend Op Result) : Bool :=
  x.result.isOk && key ∈ x.op.effect.targets

section Updates
variable {b b' : InMemoryBackend} {f : Option Value → Value} {key : Key}

theorem latestValue_of_history (h : b'.history key = b.history key) :
    latestValue b' key = latestValue b key := by
  unfold latestValue
  rw [LoadSim.latest_of_same h]

theorem latestValue_of_gcRel {sp : Timestamp} {collapse : Bool} (h : GcRel sp collapse b b') :
    latestValue b' key = latestValue b key := by
  have hread := h.read_eq (k := key) (InMemoryBackend.le_maxTs sp)
  rw [read_run, read_run] at hread
  exact Except.ok.inj hread

/-- A guard on the value that holds has the latest value. -/
theorem ReadGuard.Holds.latestValue_eq {commitTs readTs : Timestamp} {x : Option Value}
    (h : (ReadGuard.expectedValue key readTs x).Holds b commitTs) : latestValue b key = x :=
  (ReadGuard.holds_iff.mp h).2.2.2

/-- An update that succeeds is made on the latest value. -/
theorem Op.Updates.written {op : Op} (h : op.Updates f key) (hok : (op.exec b).1.isOk = true) :
    latestValue (op.exec b).2 key = some (f (latestValue b key)) := by
  obtain ⟨commitTs, guards, writes, readTs, x, rfl, hg, hw⟩ := h
  have hwrites : Writes b _ commitTs guards writes := exec_ok _ hok
  rw [(hwrites.guards _ hg).latestValue_eq]
  exact LoadSim.latest_of_update (hwrites.writable _ hw).2 (hwrites.here _ hw)

/-- A step that does not write the key leaves its value. -/
theorem latestValue_step (op : Op)
    (hgc : ∀ sp options, op.effect = .collect sp options → options.KeepsContract)
    (hno : updated key (stepOf Op.exec b op) = false) :
    latestValue (op.exec b).2 key = latestValue b key := by
  have hoff : (op.exec b).1.isOk = true → key ∉ op.effect.targets := fun hok hk => by
    simp [updated, stepOf, hok, hk] at hno
  refine exec_elim (P := fun b' => latestValue b' key = latestValue b key) op b rfl ?_ ?_ ?_ ?_ ?_
  · exact fun txnId startTs ws b' _ _ hl => latestValue_of_history (hl.histories key)
  · intro txnId startTs commitTs keys b' hok he hc
    rw [he] at hoff
    exact latestValue_of_history (hc.off key (hoff hok)).2
  · exact fun txnId startTs keys b' _ _ hr => latestValue_of_history (hr.histories key)
  · intro commitTs guards ws b' hok he hw
    rw [he] at hoff
    exact latestValue_of_history (hw.off key (hoff hok))
  · exact fun sp options b' he _ hrel => latestValue_of_gcRel (hrel (hgc sp options he))

/-- Over a run the updates add up. -/
theorem updates_run {ops : List Op}
    (hgc : ∀ op ∈ ops, ∀ sp options, op.effect = .collect sp options → options.KeepsContract)
    (hops : ∀ op ∈ ops, key ∈ op.effect.targets → op.Updates f key) :
    latestValue (final Op.exec b ops) key =
      (fun x => some (f x))^[(trace Op.exec b ops).countP (updated key)] (latestValue b key) := by
  induction ops generalizing b with
  | nil => rfl
  | cons op ops ih =>
    obtain ⟨hgc, hgcs⟩ := List.forall_mem_cons.mp hgc
    obtain ⟨hop, hops⟩ := List.forall_mem_cons.mp hops
    unfold final trace
    rw [ih hgcs hops, List.countP_cons]
    cases hup : updated key (stepOf Op.exec b op) with
    | false =>
      rw [latestValue_step op hgc hup]
      rfl
    | true =>
      obtain ⟨hok, hk⟩ := Bool.and_eq_true_iff.mp hup
      rw [(hop (of_decide_eq_true hk)).written hok, if_pos rfl, Function.iterate_succ_apply]

end Updates

/-! Counters. -/

theorem parseU64_print {n : Nat} (hn : n < 2 ^ 64) : LoadSim.parseU64 (Decimal.print 1 n) = some n := by
  have hne : Decimal.print 1 n ≠ [] := Decimal.print_ne_nil one_pos n
  have hdigits : (Decimal.print 1 n).all Decimal.isDigit = true :=
    List.all_eq_true.mpr fun c hc => Decimal.isDigit_of_mem_print hc
  -- a number does not begin with a plus sign
  have hplus : (Decimal.print 1 n).head? ≠ some 43 := by
    intro h
    have := Decimal.isDigit_of_mem_print (List.mem_of_mem_head? h)
    exact absurd this (by decide)
  unfold LoadSim.parseU64
  rw [if_neg hplus]
  dsimp only
  rw [Decimal.value_print, if_pos ⟨hne, hdigits, hn⟩]

theorem nextValue_print {n : Nat} (hn : n < 2 ^ 64) :
    LoadSim.nextValue (some (Decimal.print 1 n)) = Decimal.print 1 ((n + 1) % 2 ^ 64) := by
  unfold LoadSim.nextValue LoadSim.parseCounter
  rw [Option.bind_some, parseU64_print hn]
  rfl

/-- Counting from nothing. -/
theorem nextValue_iterate (n : Nat) :
    (fun x => some (LoadSim.nextValue x))^[n] none =
      if n = 0 then none else some (Decimal.print 1 (n % 2 ^ 64)) := by
  induction n with
  | zero => rfl
  | succ n ih =>
    rw [Function.iterate_succ_apply', ih, if_neg (Nat.succ_ne_zero n)]
    cases n with
    | zero => rfl
    | succ n =>
      rw [if_neg (Nat.succ_ne_zero n), nextValue_print (Nat.mod_lt _ (by decide)), Nat.mod_add_mod]

/-- Whatever clients there are and however their steps interleave: if all that writes a
key are increments under a guard on the value read, the key holds the number of the
increments that succeeded. -/
theorem increments_counted {ops : List Op} {key : Key}
    (hgc : ∀ op ∈ ops, ∀ sp options, op.effect = .collect sp options → options.KeepsContract)
    (hops : ∀ op ∈ ops, key ∈ op.effect.targets → op.Updates LoadSim.nextValue key) :
    let n := (steps ops).countP (updated key)
    latestValue (stateAfter ops) key =
      if n = 0 then none else some (Decimal.print 1 (n % 2 ^ 64)) := by
  intro n
  have hrun := updates_run (b := .new) hgc hops
  rw [show latestValue .new key = none from rfl, nextValue_iterate] at hrun
  exact hrun

/-- Two clients read the same value; the slower one fails and tries again. -/
theorem increments_counted_two_clients :
    let incr (commitTs readTs : Timestamp) (x : Option Value) : Op :=
      .applyGuardedBatch commitTs [.expectedValue [1] readTs x] [⟨[1], some (LoadSim.nextValue x)⟩]
    let ops : List Op := [.read [1] 1, .read [1] 1, incr 2 1 none, incr 3 1 none, .read [1] 3,
      incr 4 3 (some [49]), .applyDirectBatch 5 [⟨[2], none⟩], .gc 9 5 ⟨⟨3, 3⟩, true⟩]
    latestValue (stateAfter ops) [1] = some (Decimal.print 1 2) := by
  intro incr ops
  have hbudget : (3 : Usize) ≠ maxUsize := by decide
  have hgc : ∀ op ∈ ops, ∀ sp options, op.effect = .collect sp options → options.KeepsContract := by
    intro op hop sp options he
    simp only [ops, incr, List.mem_cons, List.not_mem_nil, or_false] at hop
    rcases hop with rfl | rfl | rfl | rfl | rfl | rfl | rfl | rfl <;> cases he
    exact .inl hbudget
  have hincr : ∀ c r x, (incr c r x).Updates LoadSim.nextValue [1] := fun c r x =>
    ⟨c, _, _, r, x, rfl, List.mem_singleton_self _, List.mem_singleton_self _⟩
  have hops : ∀ op ∈ ops, [1] ∈ op.effect.targets → op.Updates LoadSim.nextValue [1] := by
    intro op hop htarget
    simp only [ops, List.mem_cons, List.not_mem_nil, or_false] at hop
    rcases hop with rfl | rfl | rfl | rfl | rfl | rfl | rfl | rfl
    · cases htarget
    · cases htarget
    · exact hincr 2 1 none
    · exact hincr 3 1 none
    · cases htarget
    · exact hincr 4 3 (some [49])
    · exact absurd htarget (by decide)
    · cases htarget
  have hcount : (steps ops).countP (updated [1]) = 2 := by decide +kernel
  have := increments_counted hgc hops
  rw [hcount] at this
  exact this

end NexirMvcc
