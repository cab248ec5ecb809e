import NexirMvcc.Adapters
import NexirMvcc.Guards
import NexirMvcc.Foundation.Decimal

/- The command-load simulation (`examples/command_load_sim.rs`): a client that runs
   reads, writes, deletes, multi-key writes, increments and two-key transactions
   against the engine, and collects now and then. An increment reads, and writes under
   a guard on the value it read, at once or later: delayed increments wait in a queue,
   and one whose guard fails is retried on what is there then. Every other error is
   unwrapped, that is, the program panics.

   `simulation_refines_map` says what this comes to: the simulation never panics, and
   the values it leaves are those of the same commands on a plain map, on which a
   delayed increment adds one to what the map holds when it is due.

   The pseudo-random choice of the commands is not modelled: a run takes any list of
   commands, one for each round of the loop. As in `Gc`, arithmetic is that of a
   release build. -/
namespace NexirMvcc.LoadSim
open VersionHistory

/-! The program. -/

/-- `format!("key:{id:08}")`. -/
def key (id : Nat) : Key := [107, 101, 121, 58] ++ Decimal.print 8 id

def initialKeys : Nat := 20000

def gcRetention : Nat := 2000

/-- `str::parse::<u64>`: digits after at most one plus sign, of a number that fits.
Bytes that are not UTF-8 are not digits either. -/
def parseU64 (bytes : Value) : Option Nat :=
  let digits := if bytes.head? = some 43 then bytes.tail else bytes
  if digits ≠ [] ∧ digits.all Decimal.isDigit ∧ Decimal.value digits < 2 ^ 64 then
    some (Decimal.value digits)
  else none

def parseCounter (value : Option Value) : Nat := (value.bind parseU64).getD 0

/-- `(parse_counter(current) + 1).to_string()`. -/
def nextValue (current : Option Value) : Value := Decimal.print 1 ((parseCounter current + 1) % 2 ^ 64)

/-- A round of the loop, as the generator chose it. The keys of a transaction are
drawn again until they differ. -/
inductive Command where
  | read (key : Key)
  | set (key : Key)
  | del (key : Key)
  | mset (base : Nat)
  | incr (key : Key)
  | delayedIncr (key : Key) (delay : Nat)
  | txn (a b : Key) (hne : a ≠ b)

structure PendingIncr where
  dueOp : Nat
  key : Key
  readTs : Timestamp
  expectedValue : Option Value
  newValue : Value

structure Stats where
  reads : Nat := 0
  sets : Nat := 0
  deletes : Nat := 0
  msets : Nat := 0
  incrImmediate : Nat := 0
  incrDelayed : Nat := 0
  txns : Nat := 0
  guardConflicts : Nat := 0
  guardRetries : Nat := 0
  appliedPending : Nat := 0
  gcRuns : Nat := 0
  gcRemoved : Nat := 0

structure State where
  engine : InMemoryBackend
  pending : List PendingIncr
  nextTs : Nat
  cursor : Option IncrementalGcCursor
  stats : Stats

def ts (n : Nat) : Timestamp := Fin.ofNat (2 ^ 128) n

/-- `unwrap()`: an error is a panic. -/
def unwrap {ε α : Type} : Except ε α × InMemoryBackend → Option (α × InMemoryBackend)
  | (.ok a, b) => some (a, b)
  | (.error _, _) => none

/-- Write under a guard on the value read. -/
def guardedSet (commitTs : Timestamp) (key : Key) (readTs : Timestamp) (expected : Option Value)
    (value : Value) : Engine BatchError Unit :=
  applyGuardedBatch commitTs [.expectedValue key readTs expected] [⟨key, some value⟩]

def applyGuardedIncr (commitTs : Timestamp) (pending : PendingIncr) : Engine BatchError Unit :=
  guardedSet commitTs pending.key pending.readTs pending.expectedValue pending.newValue

def retryIncr (key : Key) (readTs commitTs : Timestamp) (b : InMemoryBackend) :
    Option (Except BatchError Unit × InMemoryBackend) := do
  let (current, b) ← unwrap ((NexirMvcc.read key readTs).run b)
  pure ((guardedSet commitTs key readTs current (nextValue current)).run b)

/-- The errors on which the loop retries. -/
def guardFailed : BatchError → Bool
  | .guardFailedNewerVersion _ _ _ => true
  | .guardFailedValueMismatch _ => true
  | .guardFailedVersionMismatch _ _ _ => true
  | _ => false

/-- A pending increment is due. On an error that `retries`, it is done again on the
value that is there. -/
def applyPending (retries : BatchError → Bool) (pending : PendingIncr) (s : State) : Option State :=
  let commitTs := ts s.nextTs
  let s := { s with
    nextTs := s.nextTs + 1
    stats := { s.stats with appliedPending := s.stats.appliedPending + 1 } }
  match (applyGuardedIncr commitTs pending).run s.engine with
  | (.ok (), b) => some { s with engine := b }
  | (.error e, b) =>
    if retries e then do
      let res ← retryIncr pending.key (ts (s.nextTs - 1)) (ts s.nextTs) b
      let (_, b) ← unwrap res
      pure { s with
        engine := b
        nextTs := s.nextTs + 1
        stats := { s.stats with
          guardConflicts := s.stats.guardConflicts + 1
          guardRetries := s.stats.guardRetries + 1 } }
    else none

/-- The increments at the front of the queue that are due at round `op`. -/
def drainDue (op : Nat) : List PendingIncr → State → Option State
  | [], s => some { s with pending := [] }
  | p :: rest, s =>
    if p.dueOp ≤ op then do
      let s ← applyPending guardFailed p s
      drainDue op rest s
    else some { s with pending := p :: rest }

/-- The values that the rounds write. -/
def setValue (op : Nat) : Value := [118, 58] ++ Decimal.print 1 op
def msetValue (op i : Nat) : Value := [109, 58] ++ Decimal.print 1 op ++ [58] ++ Decimal.print 1 i
def txnValue (op : Nat) (c : Byte) : Value := [116, 120, 110, 58] ++ Decimal.print 1 op ++ [58, c]

def msetWrites (op base : Nat) : List PhysicalWrite :=
  (List.range 4).map fun i => ⟨key (base + i), some (msetValue op i)⟩

def txnWrites (op : Nat) (a b : Key) : List PhysicalWrite :=
  [⟨a, some (txnValue op 97)⟩, ⟨b, some (txnValue op 98)⟩]

/-- A direct batch at the next timestamp. -/
def directSet (writes : List PhysicalWrite) (s : State) : Option State := do
  let (_, b) ← unwrap ((applyDirectBatch (ts s.nextTs) writes).run s.engine)
  pure { s with engine := b, nextTs := s.nextTs + 1 }

/-- The body of the loop after the due increments. -/
def command (op : Nat) : Command → State → Option State
  | .read key, s => do
    let (_, b) ← unwrap ((NexirMvcc.read key (ts (s.nextTs - 1))).run s.engine)
    pure { s with engine := b, stats := { s.stats with reads := s.stats.reads + 1 } }
  | .set key, s =>
    directSet [⟨key, some (setValue op)⟩]
      { s with stats := { s.stats with sets := s.stats.sets + 1 } }
  | .del key, s =>
    directSet [⟨key, none⟩] { s with stats := { s.stats with deletes := s.stats.deletes + 1 } }
  | .mset base, s =>
    directSet (msetWrites op base) { s with stats := { s.stats with msets := s.stats.msets + 1 } }
  | .incr key, s => do
    let readTs := ts (s.nextTs - 1)
    let (current, b) ← unwrap ((NexirMvcc.read key readTs).run s.engine)
    let (_, b) ← unwrap ((guardedSet (ts s.nextTs) key readTs current (nextValue current)).run b)
    pure { s with
      engine := b
      nextTs := s.nextTs + 1
      stats := { s.stats with incrImmediate := s.stats.incrImmediate + 1 } }
  | .delayedIncr key delay, s => do
    let readTs := ts (s.nextTs - 1)
    let (current, b) ← unwrap ((NexirMvcc.read key readTs).run s.engine)
    pure { s with
      engine := b
      pending := s.pending ++ [⟨op + 32 + delay, key, readTs, current, nextValue current⟩]
      stats := { s.stats with incrDelayed := s.stats.incrDelayed + 1 } }
  | .txn a b _, s => do
    let txnId : TxnId := Fin.ofNat (2 ^ 64) (op + 1)
    let startTs := ts s.nextTs
    let (_, e) ← unwrap ((prewriteBatch txnId startTs (txnWrites op a b)).run s.engine)
    let (_, e) ← unwrap ((commitBatch txnId startTs (ts (s.nextTs + 1)) [a, b]).run e)
    pure { s with
      engine := e
      nextTs := s.nextTs + 2
      stats := { s.stats with txns := s.stats.txns + 1 } }

/-- Every tenth round a step of the collection. -/
def gcStep (enableGc : Bool) (op : Nat) (s : State) : Option State :=
  if enableGc ∧ op > 0 ∧ op % 10 = 0 then do
    let (res, b) ← unwrap ((gcIncremental (ts (s.nextTs - gcRetention)) s.cursor
      ⟨⟨50, 200⟩, false⟩).run s.engine)
    pure { s with
      engine := b
      cursor := if res.done then none else some res.cursor
      stats := { s.stats with
        gcRuns := s.stats.gcRuns + 1
        gcRemoved := s.stats.gcRemoved + res.versionsRemoved } }
  else some s

def rounds (enableGc : Bool) : Nat → List Command → State → Option State
  | _, [], s => some s
  | op, c :: cs, s => do
    let s ← drainDue op s.pending s
    let s ← command op c s
    let s ← gcStep enableGc op s
    rounds enableGc (op + 1) cs s

/-- The loop after the last round: every error is retried. -/
def drainAll : List PendingIncr → State → Option State
  | [], s => some { s with pending := [] }
  | p :: rest, s => do
    let s ← applyPending (fun _ => true) p s
    drainAll rest s

def initialWrites : List PhysicalWrite :=
  (List.range initialKeys).map fun i => ⟨key i, some [48]⟩

def start (writes : List PhysicalWrite) : Option State := do
  let (_, b) ← unwrap ((applyDirectBatch (ts 1) writes).run .new)
  pure ⟨b, [], 2, none, {}⟩

/-- The program, from what the keys hold at first. -/
def simulate (writes : List PhysicalWrite) (enableGc : Bool) (commands : List Command) :
    Option State := do
  let s ← start writes
  let s ← rounds enableGc 0 commands s
  drainAll s.pending s

def runSimulation (enableGc : Bool) (commands : List Command) : Option State :=
  simulate initialWrites enableGc commands

/-! The commands on a plain map. -/

/-- A map, and the increments that wait. -/
structure Kv where
  map : Key → Option Value
  due : List (Nat × Key)

def putAll (m : Key → Option Value) (ws : List PhysicalWrite) : Key → Option Value :=
  ws.foldl (fun m w => Function.update m w.key w.value) m

def increment (m : Key → Option Value) (k : Key) : Key → Option Value :=
  Function.update m k (some (nextValue (m k)))

def Kv.drainDue (op : Nat) (m : Key → Option Value) : List (Nat × Key) → Kv
  | [] => ⟨m, []⟩
  | (due, k) :: rest =>
    if due ≤ op then Kv.drainDue op (increment m k) rest else ⟨m, (due, k) :: rest⟩

def Kv.command (op : Nat) (kv : Kv) : Command → Kv
  | .read _ => kv
  | .set key => { kv with map := putAll kv.map [⟨key, some (setValue op)⟩] }
  | .del key => { kv with map := putAll kv.map [⟨key, none⟩] }
  | .mset base => { kv with map := putAll kv.map (msetWrites op base) }
  | .incr key => { kv with map := increment kv.map key }
  | .delayedIncr key delay => { kv with due := kv.due ++ [(op + 32 + delay, key)] }
  | .txn a b _ => { kv with map := putAll kv.map (txnWrites op a b) }

def Kv.rounds : Nat → List Command → Kv → Kv
  | _, [], kv => kv
  | op, c :: cs, kv => Kv.rounds (op + 1) cs ((Kv.drainDue op kv.map kv.due).command op c)

def Kv.drainAll (kv : Kv) : Key → Option Value := kv.due.foldl (fun m p => increment m p.2) kv.map

def Kv.start (writes : List PhysicalWrite) : Kv := ⟨putAll (fun _ => none) writes, []⟩

def Kv.run (writes : List PhysicalWrite) (commands : List Command) : Key → Option Value :=
  (Kv.rounds 0 commands (Kv.start writes)).drainAll

section PutAll
variable {m : Key → Option Value} {ws : List PhysicalWrite} {k : Key}

theorem putAll_of_not_mem (h : k ∉ ws.map (·.key)) : putAll m ws k = m k := by
  induction ws generalizing m with
  | nil => rfl
  | cons w ws ih =>
    rw [List.map_cons, List.mem_cons, not_or] at h
    show putAll (Function.update m w.key w.value) ws k = m k
    rw [ih h.2, Function.update_of_ne h.1]

theorem putAll_of_mem (hnd : (ws.map (·.key)).Nodup) {w : PhysicalWrite} (hw : w ∈ ws) :
    putAll m ws w.key = w.value := by
  induction ws generalizing m with
  | nil => cases hw
  | cons w' ws ih =>
    rw [List.map_cons, List.nodup_cons] at hnd
    show putAll (Function.update m w'.key w'.value) ws w.key = w.value
    rcases List.mem_cons.mp hw with rfl | hw
    · rw [putAll_of_not_mem hnd.1, Function.update_self]
    · exact ih hnd.2 hw

end PutAll

/-! The engine against the map. -/

/-- No key is locked, every version is below `n`, and the latest values are those of
the map. -/
structure Holds (b : InMemoryBackend) (n : Nat) (m : Key → Option Value) : Prop where
  free : ∀ k, b.getIntent k = none
  below : ∀ k, ∀ t ∈ dom (b.history k), t.val < n
  value : ∀ k, (b.getLatestCommitted k).bind (·.value) = m k

section Engine
variable {b b' : InMemoryBackend} {n : Nat} {m : Key → Option Value} {k : Key}

theorem ts_val (h : n < 2 ^ 128) : (ts n).val = n := Nat.mod_eq_of_lt h

theorem Holds.lt_ts (h : Holds b n m) (hn : n < 2 ^ 128) (k : Key) :
    ∀ t ∈ dom (b.history k), t < ts n := fun t ht => by
  rw [Fin.lt_def, ts_val hn]
  exact h.below k t ht

theorem Holds.le_ts (h : Holds b n m) (hpos : 0 < n) (hn : n ≤ 2 ^ 128) (k : Key) :
    ∀ t ∈ dom (b.history k), t ≤ ts (n - 1) := fun t ht => by
  have hlt := h.below k t ht
  rw [Fin.le_def, ts_val (by omega)]
  omega

theorem Holds.writable (h : Holds b n m) (hn : n < 2 ^ 128) (k : Key) : Writable b (ts n) k :=
  ⟨h.free k, h.lt_ts hn k⟩

theorem Holds.mono (h : Holds b n m) {n' : Nat} (hn : n ≤ n') : Holds b n' m :=
  ⟨h.free, fun k t ht => (h.below k t ht).trans_le hn, h.value⟩

/-- A read just below the next timestamp returns what the map holds. -/
theorem Holds.read (h : Holds b n m) (hpos : 0 < n) (hn : n ≤ 2 ^ 128) (k : Key) :
    (NexirMvcc.read k (ts (n - 1))).run b = (.ok (m k), b) := by
  rw [read_run, visible_eq_latest (h.le_ts hpos hn k), h.value k]

/-- A new version above all others is the latest. -/
theorem latest_of_update {t : Timestamp} {x : Option Value}
    (hlt : ∀ u ∈ dom (b.history k), u < t)
    (hnew : b'.history k = Function.update (b.history k) t (some x)) :
    (b'.getLatestCommitted k).bind (·.value) = x := by
  have hmem : t ∈ dom (b'.history k) := by
    rw [hnew, dom_update_some]
    exact Set.mem_insert t _
  have hlat : Latest (b'.history k) t := by
    refine ⟨hmem, fun u hu => ?_⟩
    rw [hnew, dom_update_some] at hu
    rcases hu with rfl | hu
    · exact le_rfl
    · exact (hlt u hu).le
  rw [getLatestCommitted_of_latest hlat (by rw [hnew, Function.update_self])]
  rfl

theorem latest_of_same (hsame : b'.history k = b.history k) :
    b'.getLatestCommitted k = b.getLatestCommitted k := by
  rw [InMemoryBackend.getLatestCommitted_eq, InMemoryBackend.getLatestCommitted_eq]
  exact getVisibleCommitted_of_history hsame

/-- Versions of distinct keys, all at `t`, that are new. -/
theorem Holds.wrote (h : Holds b n m) {ws : List PhysicalWrite} {t : Timestamp} {n' : Nat}
    (hnd : (ws.map (·.key)).Nodup) (hlt : ∀ k, ∀ u ∈ dom (b.history k), u < t) (hn : n ≤ n')
    (ht : t.val < n') (hfree : ∀ k, b'.getIntent k = none)
    (hhere : ∀ w ∈ ws, b'.history w.key = Function.update (b.history w.key) t (some w.value))
    (hoff : ∀ k, k ∉ ws.map (·.key) → b'.history k = b.history k) : Holds b' n' (putAll m ws) := by
  refine ⟨hfree, fun k u hu => ?_, fun k => ?_⟩
  · by_cases hk : k ∈ ws.map (·.key)
    · obtain ⟨w, hw, rfl⟩ := List.mem_map.mp hk
      rw [hhere w hw, dom_update_some] at hu
      rcases hu with rfl | hu
      · exact ht
      · exact (h.below w.key u hu).trans_le hn
    · rw [hoff k hk] at hu
      exact (h.below k u hu).trans_le hn
  · by_cases hk : k ∈ ws.map (·.key)
    · obtain ⟨w, hw, rfl⟩ := List.mem_map.mp hk
      rw [putAll_of_mem hnd hw]
      exact latest_of_update (hlt w.key) (hhere w hw)
    · rw [putAll_of_not_mem hk, latest_of_same (hoff k hk)]
      exact h.value k

theorem Holds.writes (h : Holds b n m) (hn : n < 2 ^ 128) {gs : List ReadGuard}
    {ws : List PhysicalWrite} (hw : Writes b b' (ts n) gs ws) : Holds b' (n + 1) (putAll m ws) :=
  h.wrote hw.nodup (h.lt_ts hn) (Nat.le_succ n) (by rw [ts_val hn]; exact Nat.lt_succ_self n)
    (fun k => (hw.intents k).trans (h.free k)) hw.here hw.off

/-- Direct batches succeed. -/
theorem Holds.direct (h : Holds b n m) (hn : n < 2 ^ 128) {ws : List PhysicalWrite} (hne : ws ≠ [])
    (hnd : (ws.map (·.key)).Nodup) :
    ∃ b', (applyDirectBatch (ts n) ws).run b = (.ok (), b') ∧ Holds b' (n + 1) (putAll m ws) := by
  have hw : ∀ w ∈ ws, Writable b (ts n) w.key := fun w _ => h.writable hn w.key
  have hno : ∀ g ∈ ([] : List ReadGuard), g.Holds b (ts n) := nofun
  exact ⟨_, applyDirectBatch_ok.mpr ⟨hne, hnd, hw, rfl⟩,
    h.writes hn (writes_putCommittedBatch hnd hno hw)⟩

/-- A guard fails on a key that has a newer version or another value. -/
theorem Holds.guard_refused (h : Holds b n m) {r : Timestamp} (hlt : r < ts n) {k : Key}
    {x : Option Value} (hguard : ¬ ((∀ t ∈ dom (b.history k), t ≤ r) ∧ m k = x)) :
    ∃ e, guardFailed e = true ∧
      (checkGuards (ts n) [.expectedValue k r x]).run b = (.error e, b) := by
  have hlate : ¬ ts n ≤ (ReadGuard.expectedValue k r x).readTs := not_le_of_gt hlt
  have hfree : b.getIntent (ReadGuard.expectedValue k r x).key = none := h.free k
  unfold checkGuards
  rw [if_neg hlate, run_getIntent, hfree]
  dsimp only
  rw [run_getLatestCommitTs]
  cases hl : (b.getLatestCommitTs (ReadGuard.expectedValue k r x).key).filter
      ((ReadGuard.expectedValue k r x).readTs < ·) with
  | some t => exact ⟨.guardFailedNewerVersion k r t, rfl, rfl⟩
  | none =>
    have hle : ∀ t ∈ dom (b.history k), t ≤ r := latest_filter_lt.mp hl
    have hval : (b.getVisibleCommitted k r).bind (·.value) ≠ x := by
      rw [visible_eq_latest hle, h.value k]
      exact fun he => hguard ⟨hle, he⟩
    have hverdict : (ReadGuard.expectedValue k r x).verdict (b.getVisibleCommitted
        (ReadGuard.expectedValue k r x).key (ReadGuard.expectedValue k r x).readTs) =
        .error (.guardFailedValueMismatch k) := if_pos hval
    refine ⟨.guardFailedValueMismatch k, rfl, ?_⟩
    dsimp only
    rw [run_getVisibleCommitted, hverdict]
    rfl

/-- A guarded write succeeds, and then the map holds what was read, or its guard
fails and nothing is written. -/
theorem Holds.guarded (h : Holds b n m) (hn : n < 2 ^ 128) {r : Timestamp} (hr : r.val < n)
    (k : Key) (x : Option Value) (v : Value) :
    (m k = x ∧ ∃ b', (guardedSet (ts n) k r x v).run b = (.ok (), b') ∧
      Holds b' (n + 1) (Function.update m k (some v))) ∨
    (¬ ((∀ t ∈ dom (b.history k), t ≤ r) ∧ m k = x) ∧
      ∃ e, guardFailed e = true ∧ (guardedSet (ts n) k r x v).run b = (.error e, b)) := by
  have hlt : r < ts n := by
    rw [Fin.lt_def, ts_val hn]
    exact hr
  by_cases hguard : (∀ t ∈ dom (b.history k), t ≤ r) ∧ m k = x
  · have hg : ∀ g ∈ [ReadGuard.expectedValue k r x], g.Holds b (ts n) := by
      refine List.forall_mem_singleton.mpr (ReadGuard.holds_iff.mpr ⟨hlt, h.free k, ?_, ?_⟩)
      · exact forall_versions_le.mpr hguard.1
      · exact (h.value k).trans hguard.2
    have hw : ∀ w ∈ [(⟨k, some v⟩ : PhysicalWrite)], Writable b (ts n) w.key :=
      List.forall_mem_singleton.mpr (h.writable hn k)
    exact .inl ⟨hguard.2, _, applyGuardedBatch_ok.mpr ⟨by simp, by simp, by simp, hg, hw, rfl⟩,
      h.writes hn (writes_putCommittedBatch (by simp) hg hw)⟩
  · refine .inr ⟨hguard, ?_⟩
    obtain ⟨e, he, hrun⟩ := h.guard_refused hlt hguard
    refine ⟨e, he, ?_⟩
    show (checkGuards (ts n) [.expectedValue k r x] >>= _ : Engine BatchError Unit).run b = _
    rw [run_bind, hrun]

/-- What is read just before the next timestamp can be written back there. -/
theorem Holds.guarded_fresh (h : Holds b n m) (hpos : 0 < n) (hn : n < 2 ^ 128) (k : Key)
    (v : Value) : ∃ b', (guardedSet (ts n) k (ts (n - 1)) (m k) v).run b = (.ok (), b') ∧
      Holds b' (n + 1) (Function.update m k (some v)) := by
  have hr : (ts (n - 1)).val < n := by
    rw [ts_val (by omega)]
    omega
  rcases h.guarded hn hr k (m k) v with ⟨-, hok⟩ | ⟨hno, -⟩
  · exact hok
  · exact absurd ⟨h.le_ts hpos hn.le k, rfl⟩ hno

/-- A retry succeeds. -/
theorem Holds.retry (h : Holds b n m) (hpos : 0 < n) (hn : n < 2 ^ 128) (k : Key) :
    ∃ b', retryIncr k (ts (n - 1)) (ts n) b = some (.ok (), b') ∧ Holds b' (n + 1) (increment m k) := by
  obtain ⟨b', hrun, hholds⟩ := h.guarded_fresh hpos hn k (nextValue (m k))
  refine ⟨b', ?_, hholds⟩
  unfold retryIncr
  rw [h.read hpos hn.le k, ← hrun]
  rfl

/-- Two keys are locked and committed. -/
theorem Holds.txn (h : Holds b n m) (hn : n + 1 < 2 ^ 128) (ws : List PhysicalWrite) (hne : ws ≠ [])
    (hnd : (ws.map (·.key)).Nodup) (txnId : TxnId) :
    ∃ b₁ b', (prewriteBatch txnId (ts n) ws).run b = (.ok (), b₁) ∧
      (commitBatch txnId (ts n) (ts (n + 1)) (ws.map (·.key))).run b₁ = (.ok (), b') ∧
      Holds b' (n + 2) (putAll m ws) := by
  have hval : (ts (n + 1)).val = n + 1 := ts_val hn
  have hlt : ts n < ts (n + 1) := by
    rw [Fin.lt_def, ts_val (by omega), hval]
    exact Nat.lt_succ_self n
  have hbelow : ∀ k, ∀ t ∈ dom (b.history k), t < ts (n + 1) := fun k t ht =>
    (h.lt_ts (by omega) k t ht).trans hlt
  have hfree : ∀ w ∈ ws, Free b (ts n) w.key := fun w _ =>
    ⟨h.free w.key, fun t ht => (h.lt_ts (by omega) w.key t ht).le⟩
  have hlocks : Locks b (b.putIntentsBatch (intentsOf txnId (ts n) ws)) txnId (ts n) ws :=
    locks_putIntentsBatch hnd hfree
  generalize hb₁ : b.putIntentsBatch (intentsOf txnId (ts n) ws) = b₁ at hlocks
  -- every key holds the new intent
  have hheld : ∀ w ∈ ws, b₁.getIntent w.key =
      some ⟨w.key, txnId, ts n, Mutation.ofValue w.value, none⟩ := fun w hw => by
    rw [hlocks.intent_here hw, h.free w.key]
    rfl
  have hcommittable : ∀ k ∈ ws.map (·.key), Committable b₁ txnId (ts n) (ts (n + 1)) k := by
    intro k hk
    obtain ⟨w, hw, rfl⟩ := List.mem_map.mp hk
    refine ⟨_, hheld w hw, ⟨rfl, rfl⟩, fun t => nofun, ?_⟩
    rw [hlocks.histories]
    exact hbelow w.key
  have hkeys : ws.map (·.key) ≠ [] := by simpa using hne
  refine ⟨b₁, _, prewriteBatch_ok.mpr ⟨hne, hnd, .inr ⟨hfree, hb₁.symm⟩⟩,
    commitBatch_ok.mpr ⟨hkeys, hnd, hlt, hcommittable, rfl⟩, ?_⟩
  have hc := commits_commitIntentsBatch hnd hlt hcommittable
  refine h.wrote hnd hbelow (by omega) (by omega) (fun k => ?_) (fun w hw => ?_) fun k hk => ?_
  · by_cases hk : k ∈ ws.map (·.key)
    · exact (hc.here k hk).1
    · rw [(hc.off k hk).1, hlocks.off k hk, h.free k]
  · rw [(hc.here w.key (List.mem_map_of_mem hw)).2, commitOf_eq (hheld w hw), hlocks.histories]
    simp
  · rw [(hc.off k hk).2, hlocks.histories]

/-- A collection that does not collapse. -/
theorem Holds.collected (h : Holds b n m) {sp : Timestamp} (hrel : GcRel sp false b b') :
    Holds b' n m := by
  refine ⟨fun k => (hrel.intents k).trans (h.free k), fun k t ht => ?_, fun k => ?_⟩
  · exact h.below k t ((hrel.pruned k).dom_sub ht)
  · have hsim : Sim PruningOf b' b :=
      ⟨hrel.intents, fun k => (hrel.pruned k).mono fun s _ => ⟨s, trivial, le_rfl⟩⟩
    rw [hsim.latest_eq k]
    exact h.value k

end Engine

/-! The program against the map. -/

/-- After `rounds` rounds and with `waiting` increments in the queue, the counters add up. -/
structure Stats.AddUp (st : Stats) (waiting rounds : Nat) : Prop where
  retried : st.guardRetries = st.guardConflicts
  conflicts : st.guardConflicts ≤ st.appliedPending
  delayed : st.appliedPending + waiting = st.incrDelayed
  total : st.reads + st.sets + st.deletes + st.msets + st.incrImmediate + st.incrDelayed + st.txns =
    rounds

/-- A state of the program with the queue `ps`, and the map it stands for, after
`op` rounds. A round takes at most two timestamps, for itself or for the increment it
delays. -/
structure Rel (op : Nat) (ps : List PendingIncr) (s : State) (m : Key → Option Value) : Prop where
  holds : Holds s.engine s.nextTs m
  ready : ∀ p ∈ ps, p.readTs.val < s.nextTs ∧ p.newValue = nextValue p.expectedValue
  started : 2 ≤ s.nextTs
  ticks : s.nextTs + 2 * ps.length ≤ 2 + 2 * op
  stats : s.stats.AddUp ps.length op

/-- The queue as the map machine sees it. -/
def dueKeys (ps : List PendingIncr) : List (Nat × Key) := ps.map fun p => (p.dueOp, p.key)

section Loop
variable {op : Nat} {ps : List PendingIncr} {p : PendingIncr} {s : State} {m : Key → Option Value}

theorem Rel.readTs_lt (h : Rel op ps s m) (hop : 2 + 2 * op ≤ 2 ^ 128) :
    (ts (s.nextTs - 1)).val < s.nextTs := by
  have h2 := h.started
  have ht := h.ticks
  rw [ts_val (by omega)]
  omega

/-- A due increment adds one to what is there, at the first try or at the second. -/
theorem Rel.applyPending (h : Rel op (p :: ps) s m) (hop : 2 + 2 * op ≤ 2 ^ 128)
    (retries : BatchError → Bool) (hretries : ∀ e, guardFailed e = true → retries e = true) :
    ∃ s', applyPending retries p s = some s' ∧ Rel op ps s' (increment m p.key) := by
  obtain ⟨hlt, hnew⟩ := h.ready p List.mem_cons_self
  have hticks := h.ticks
  rw [List.length_cons] at hticks
  have hn : s.nextTs < 2 ^ 128 := by omega
  have hready : ∀ q ∈ ps, ∀ n, s.nextTs ≤ n →
      q.readTs.val < n ∧ q.newValue = nextValue q.expectedValue := fun q hq n hle =>
    (h.ready q (List.mem_cons_of_mem p hq)).imp_left fun hq => hq.trans_le hle
  obtain ⟨hretried, hconf, hdelayed, htotal⟩ := h.stats
  rw [List.length_cons] at hdelayed
  unfold LoadSim.applyPending applyGuardedIncr
  rcases h.holds.guarded hn hlt p.key p.expectedValue p.newValue with
    ⟨hsame, b', hrun, hholds⟩ | ⟨-, e, he, hrun⟩
  · refine ⟨_, by simp only [hrun]; rfl, ?_⟩
    refine ⟨?_, fun q hq => hready q hq (s.nextTs + 1) (by omega), ?_, ?_, ?_⟩
    · rw [hnew, ← hsame] at hholds
      exact hholds
    · exact h.started.trans (Nat.le_succ _)
    · show s.nextTs + 1 + 2 * ps.length ≤ _
      omega
    · exact ⟨hretried, Nat.le_succ_of_le hconf, by dsimp only; omega, htotal⟩
  · have hfresh : Holds s.engine (s.nextTs + 1) m := h.holds.mono (Nat.le_succ s.nextTs)
    obtain ⟨b', hretry, hholds⟩ := hfresh.retry (Nat.succ_pos _) (by omega) p.key
    refine ⟨_, by simp only [hrun, hretries e he, if_true]; rw [hretry]; rfl, ?_⟩
    refine ⟨hholds, fun q hq => hready q hq (s.nextTs + 1 + 1) (by omega), ?_, ?_, ?_⟩
    · exact h.started.trans (Nat.le_add_right _ 2)
    · show s.nextTs + 1 + 1 + 2 * ps.length ≤ _
      omega
    · exact ⟨by dsimp only; omega, by dsimp only; omega, by dsimp only; omega, htotal⟩

/-- The queue itself is not part of the relation. -/
theorem Rel.withPending (h : Rel op ps s m) (q : List PendingIncr) :
    Rel op ps { s with pending := q } m :=
  ⟨h.holds, h.ready, h.started, h.ticks, h.stats⟩

theorem Rel.drainDue (h : Rel op ps s m) (hop : 2 + 2 * op ≤ 2 ^ 128) :
    ∃ s' m', drainDue op ps s = some s' ∧ Kv.drainDue op m (dueKeys ps) = ⟨m', dueKeys s'.pending⟩ ∧
      Rel op s'.pending s' m' := by
  induction ps generalizing s m with
  | nil => exact ⟨_, m, rfl, rfl, h.withPending []⟩
  | cons p ps ih =>
    unfold LoadSim.drainDue
    by_cases hdue : p.dueOp ≤ op
    · obtain ⟨s₁, hrun, hrel⟩ := h.applyPending hop guardFailed fun _ he => he
      obtain ⟨s', m', hrest, hkv, hrel'⟩ := ih hrel
      refine ⟨s', m', ?_, ?_, hrel'⟩
      · rw [if_pos hdue, hrun]
        exact hrest
      · show Kv.drainDue op m ((p.dueOp, p.key) :: dueKeys ps) = _
        rw [Kv.drainDue, if_pos hdue, hkv]
    · rw [if_neg hdue]
      refine ⟨_, m, rfl, ?_, h.withPending _⟩
      show Kv.drainDue op m ((p.dueOp, p.key) :: dueKeys ps) = _
      rw [Kv.drainDue, if_neg hdue]
      rfl

theorem Rel.drainAll (h : Rel op ps s m) (hop : 2 + 2 * op ≤ 2 ^ 128) :
    ∃ s', drainAll ps s = some s' ∧ s'.pending = [] ∧
      Rel op [] s' (Kv.drainAll ⟨m, dueKeys ps⟩) := by
  induction ps generalizing s m with
  | nil => exact ⟨_, rfl, rfl, h.withPending []⟩
  | cons p ps ih =>
    obtain ⟨s₁, hrun, hrel⟩ := h.applyPending hop (fun _ => true) fun _ _ => rfl
    obtain ⟨s', hrest, hnil, hrel'⟩ := ih hrel
    refine ⟨s', ?_, hnil, hrel'⟩
    unfold LoadSim.drainAll
    rw [hrun]
    exact hrest

/-- A round that leaves the queue as it is. -/
theorem Rel.advance (h : Rel op s.pending s m) {e : InMemoryBackend} {n : Nat}
    {m' : Key → Option Value} {st : Stats} (hle : s.nextTs ≤ n) (hn : n ≤ s.nextTs + 2)
    (hholds : Holds e n m') (hst : st.AddUp s.pending.length (op + 1)) :
    Rel (op + 1) s.pending { s with engine := e, nextTs := n, stats := st } m' := by
  have hticks := h.ticks
  refine ⟨hholds, fun p hp => (h.ready p hp).imp_left fun hlt => hlt.trans_le hle,
    h.started.trans hle, ?_, hst⟩
  dsimp only
  omega

theorem Rel.directSet (h : Rel op s.pending s m) (hop : 2 + 2 * (op + 1) ≤ 2 ^ 128)
    (ws : List PhysicalWrite) (hne : ws ≠ []) (hnd : (ws.map (·.key)).Nodup) (st : Stats)
    (hst : st.AddUp s.pending.length (op + 1)) :
    ∃ s', directSet ws { s with stats := st } = some s' ∧ s'.pending = s.pending ∧
      Rel (op + 1) s'.pending s' (putAll m ws) := by
  have hticks := h.ticks
  obtain ⟨b', hrun, hholds⟩ := h.holds.direct (by omega) hne hnd
  refine ⟨{ s with engine := b', nextTs := s.nextTs + 1, stats := st },
    by simp only [LoadSim.directSet, hrun]; rfl, rfl, ?_⟩
  exact h.advance (Nat.le_succ _) (by omega) hholds hst

theorem key_injective : Function.Injective key := fun _ _ h =>
  Decimal.print_injective 8 (List.append_cancel_left h)

theorem nodup_msetWrites (op base : Nat) : ((msetWrites op base).map (·.key)).Nodup := by
  unfold msetWrites
  rw [List.map_map]
  refine List.Nodup.map (fun i j hij => ?_) List.nodup_range
  have : base + i = base + j := key_injective hij
  omega

/-- A round does on the engine what it does on the map. -/
theorem Rel.command (h : Rel op s.pending s m) (hop : 2 + 2 * (op + 1) ≤ 2 ^ 128) (c : Command) :
    ∃ s' m', command op c s = some s' ∧
      Kv.command op ⟨m, dueKeys s.pending⟩ c = ⟨m', dueKeys s'.pending⟩ ∧
      Rel (op + 1) s'.pending s' m' := by
  have h2 := h.started
  have hticks := h.ticks
  have hread := h.holds.read (by omega) (by omega)
  obtain ⟨hretried, hconf, hdelayed, htotal⟩ := h.stats
  cases c with
  | read k =>
    refine ⟨{ s with stats := { s.stats with reads := s.stats.reads + 1 } }, m,
      by simp only [LoadSim.command, hread]; rfl, rfl, ?_⟩
    exact h.advance le_rfl (by omega) h.holds
      ⟨hretried, hconf, hdelayed, by dsimp only; omega⟩
  | set k =>
    obtain ⟨s', hrun, hp, hrel⟩ := h.directSet hop [⟨k, some (setValue op)⟩] (by simp) (by simp)
      { s.stats with sets := s.stats.sets + 1 }
      ⟨hretried, hconf, hdelayed, by dsimp only; omega⟩
    exact ⟨s', _, hrun, by rw [hp]; rfl, hrel⟩
  | del k =>
    obtain ⟨s', hrun, hp, hrel⟩ := h.directSet hop [⟨k, none⟩] (by simp) (by simp)
      { s.stats with deletes := s.stats.deletes + 1 }
      ⟨hretried, hconf, hdelayed, by dsimp only; omega⟩
    exact ⟨s', _, hrun, by rw [hp]; rfl, hrel⟩
  | mset base =>
    obtain ⟨s', hrun, hp, hrel⟩ := h.directSet hop (msetWrites op base) (by simp [msetWrites])
      (nodup_msetWrites op base) { s.stats with msets := s.stats.msets + 1 }
      ⟨hretried, hconf, hdelayed, by dsimp only; omega⟩
    exact ⟨s', _, hrun, by rw [hp]; rfl, hrel⟩
  | incr k =>
    obtain ⟨b', hrun, hholds⟩ := h.holds.guarded_fresh (by omega) (by omega) k (nextValue (m k))
    refine ⟨{ s with
      engine := b'
      nextTs := s.nextTs + 1
      stats := { s.stats with incrImmediate := s.stats.incrImmediate + 1 } }, increment m k, ?_, rfl, ?_⟩
    · simp only [LoadSim.command, hread, unwrap, bind, Option.bind, hrun]
      rfl
    · exact h.advance (Nat.le_succ _) (by omega) hholds
        ⟨hretried, hconf, hdelayed, by dsimp only; omega⟩
  | delayedIncr k delay =>
    refine ⟨_, m, by simp only [LoadSim.command, hread]; rfl, ?_, ?_⟩
    · simp [Kv.command, dueKeys]
    · refine ⟨h.holds, ?_, h2, ?_, ?_⟩
      · refine List.forall_mem_append.mpr ⟨h.ready, List.forall_mem_singleton.mpr ?_⟩
        exact ⟨h.readTs_lt (by omega), rfl⟩
      · simp only [List.length_append, List.length_singleton]
        omega
      · simp only [List.length_append, List.length_singleton]
        exact ⟨hretried, hconf, by dsimp only; omega, by dsimp only; omega⟩
  | txn a b hne =>
    obtain ⟨b₁, b', hpre, hcommit, hholds⟩ := h.holds.txn (by omega) (txnWrites op a b)
      (by simp [txnWrites]) (by simpa [txnWrites] using hne) (Fin.ofNat (2 ^ 64) (op + 1))
    refine ⟨{ s with
      engine := b'
      nextTs := s.nextTs + 2
      stats := { s.stats with txns := s.stats.txns + 1 } }, putAll m (txnWrites op a b), ?_, rfl, ?_⟩
    · simp only [LoadSim.command, hpre, unwrap, bind, Option.bind]
      rw [show [a, b] = (txnWrites op a b).map (·.key) from rfl, hcommit]
      rfl
    · exact h.advance (Nat.le_add_right _ 2) (by omega) hholds
        ⟨hretried, hconf, hdelayed, by dsimp only; omega⟩

/-- A step of the collection is not seen on the map. -/
theorem Rel.gcStep (h : Rel op s.pending s m) (enableGc : Bool) (round : Nat) :
    ∃ s', gcStep enableGc round s = some s' ∧ s'.pending = s.pending ∧ Rel op s'.pending s' m := by
  unfold LoadSim.gcStep
  split
  · have hv : GcBudget.Valid ⟨50, 200⟩ := ⟨by decide, by decide⟩
    have hm : BelowMax ⟨⟨50, 200⟩, false⟩ := ⟨by decide, by decide⟩
    obtain ⟨res, b', hrun, -, hrel, -⟩ :=
      gcIncremental_run hv hm (ts (s.nextTs - gcRetention)) s.cursor s.engine
    refine ⟨{ s with
      engine := b'
      cursor := if res.done then none else some res.cursor
      stats := { s.stats with
        gcRuns := s.stats.gcRuns + 1
        gcRemoved := s.stats.gcRemoved + res.versionsRemoved } }, by rw [hrun]; rfl, rfl, ?_⟩
    exact ⟨h.holds.collected hrel, h.ready, h.started, h.ticks,
      h.stats.retried, h.stats.conflicts, h.stats.delayed, h.stats.total⟩
  · exact ⟨s, rfl, rfl, h⟩

/-- The loop. -/
theorem Rel.rounds (enableGc : Bool) (commands : List Command) (h : Rel op s.pending s m)
    (hop : 2 + 2 * (op + commands.length) ≤ 2 ^ 128) :
    ∃ s' m', rounds enableGc op commands s = some s' ∧
      Kv.rounds op commands ⟨m, dueKeys s.pending⟩ = ⟨m', dueKeys s'.pending⟩ ∧
      Rel (op + commands.length) s'.pending s' m' := by
  induction commands generalizing op s m with
  | nil => exact ⟨s, m, rfl, rfl, h⟩
  | cons c commands ih =>
    rw [List.length_cons] at hop
    obtain ⟨s₁, m₁, hdrain, hkv₁, h₁⟩ := h.drainDue (by omega)
    obtain ⟨s₂, m₂, hcommand, hkv₂, h₂⟩ := h₁.command (by omega) c
    obtain ⟨s₃, hgc, hp, h₃⟩ := h₂.gcStep enableGc op
    obtain ⟨s', m', hrest, hkv, h'⟩ := ih h₃ (by omega)
    refine ⟨s', m', ?_, ?_, ?_⟩
    · simp only [LoadSim.rounds, bind, Option.bind, hdrain, hcommand, hgc]
      exact hrest
    · rw [Kv.rounds, hkv₁, hkv₂, ← hp, hkv]
    · rw [List.length_cons, show op + (commands.length + 1) = op + 1 + commands.length by omega]
      exact h'

end Loop

theorem start_rel {ws : List PhysicalWrite} (hne : ws ≠ []) (hnd : (ws.map (·.key)).Nodup) :
    ∃ s, start ws = some s ∧ s.pending = [] ∧ Rel 0 [] s (putAll (fun _ => none) ws) := by
  have hnew : Holds .new 1 fun _ => none := by
    refine ⟨fun _ => rfl, fun k t ht => ?_, fun k => ?_⟩
    · rw [InMemoryBackend.history_new] at ht
      exact absurd ht (not_mem_dom.mpr rfl)
    · rfl
  obtain ⟨b, hrun, hholds⟩ := hnew.direct (by decide) hne hnd
  refine ⟨⟨b, [], 2, none, {}⟩, by unfold start; rw [hrun]; rfl, rfl, ?_⟩
  exact ⟨hholds, by simp, le_rfl, le_rfl, rfl, le_rfl, rfl, rfl⟩

theorem nodup_initialWrites : (initialWrites.map (·.key)).Nodup := by
  unfold initialWrites
  rw [List.map_map]
  exact List.nodup_range.map key_injective

theorem initialWrites_ne_nil : initialWrites ≠ [] := by
  refine List.ne_nil_of_length_pos ?_
  rw [initialWrites, List.length_map, List.length_range]
  decide

theorem simulate_rel (enableGc : Bool) {ws : List PhysicalWrite} {commands : List Command}
    (hne : ws ≠ []) (hnd : (ws.map (·.key)).Nodup) (hcount : 2 + 2 * commands.length ≤ 2 ^ 128) :
    ∃ s, simulate ws enableGc commands = some s ∧ s.pending = [] ∧
      Rel commands.length [] s (Kv.run ws commands) := by
  obtain ⟨s₀, hstart, hnil, h₀⟩ := start_rel hne hnd
  rw [← hnil] at h₀
  obtain ⟨s₁, m₁, hrounds, hkv, h₁⟩ := h₀.rounds enableGc commands (by omega)
  obtain ⟨s, hdrain, hp, h⟩ := h₁.drainAll (by omega)
  rw [Nat.zero_add] at h
  rw [hnil] at hkv
  refine ⟨s, ?_, hp, ?_⟩
  · unfold simulate
    simp only [bind, Option.bind, hstart, hrounds]
    exact hdrain
  · rw [← hkv] at h
    exact h

/-- The simulation never panics, and leaves what the same commands leave on a plain
map: whatever the interleaving of delayed increments, retries, transactions and
collections, no update is lost and none is made twice. In the end the queue is empty,
no key is locked, and the counters add up. -/
theorem simulation_refines_map (enableGc : Bool) (commands : List Command)
    (hcount : 2 + 2 * commands.length ≤ 2 ^ 128) :
    ∃ s, runSimulation enableGc commands = some s ∧ s.pending = [] ∧
      (∀ k, ((NexirMvcc.read k (ts (s.nextTs - 1))).run s.engine).1 =
        .ok (Kv.run initialWrites commands k)) ∧
      (∀ k, s.engine.getIntent k = none) ∧ s.stats.AddUp 0 commands.length := by
  obtain ⟨s, hrun, hp, h⟩ := simulate_rel enableGc initialWrites_ne_nil nodup_initialWrites hcount
  have h2 := h.started
  have hticks := h.ticks
  refine ⟨s, hrun, hp, fun k => ?_, h.holds.free, h.stats⟩
  rw [h.holds.read (by omega) (by omega) k]

/-- Two delayed increments of a key and a delete between them, with collections. -/
theorem simulation_refines_map_delayed_incr :
    ∃ s, runSimulation true [.delayedIncr (key 7) 3, .incr (key 7), .del (key 7),
        .delayedIncr (key 7) 0, .txn (key 7) (key 8) (fun h => absurd (key_injective h) (by decide))] =
      some s ∧ s.stats.AddUp 0 5 := by
  obtain ⟨s, hrun, -, -, -, hstats⟩ := simulation_refines_map true
    [.delayedIncr (key 7) 3, .incr (key 7), .del (key 7), .delayedIncr (key 7) 0,
      .txn (key 7) (key 8) (fun h => absurd (key_injective h) (by decide))] (by simp)
  exact ⟨s, hrun, hstats⟩

end NexirMvcc.LoadSim
