import NexirMvcc.Faults

/- The work of one operation, counted in backend calls: calls that read, calls that
   mutate, and entries of the pages that `keys_from` and `get_committed_timestamps_before`
   return. `Op.allowance` is what an operation may spend, as a function of its arguments
   alone. It holds on every backend that returns no more than the limit it is asked for,
   whatever else it answers and wherever it fails; `gc` repeats its step until nothing is
   left and has no such bound. `work_bounded` is the main result.

   In a collection step every key costs at most four reads. Removals are paid for by
   `max_versions`, and so are the timestamps read: a key's page holds what is removed, and
   one entry more only where the step stops. -/
namespace NexirMvcc
open CallTree

/-- The calls and the page entries of an operation. -/
structure Work where
  reads : Nat := 0
  mutations : Nat := 0
  rows : Nat := 0
  deriving DecidableEq, Repr

instance : LE Work := ⟨fun w w' => w.reads ≤ w'.reads ∧ w.mutations ≤ w'.mutations ∧ w.rows ≤ w'.rows⟩

/-- The entries of a page. -/
def pageSize : CallEvent BackendCall.Reply String → Nat
  | ⟨.keysFrom _ _, .ok keys⟩ => keys.length
  | ⟨.allKeys, .ok keys⟩ => keys.length
  | ⟨.getCommittedTimestampsBefore _ _ _, .ok tss⟩ => tss.length
  | _ => 0

/-- Count one call. -/
def Work.charge (w : Work) (e : CallEvent BackendCall.Reply String) : Work where
  reads := if e.1.mutates then w.reads else w.reads + 1
  mutations := if e.1.mutates then w.mutations + 1 else w.mutations
  rows := w.rows + pageSize e

/-- The work of the calls made. -/
def work (es : List (CallEvent BackendCall.Reply String)) : Work := es.foldl Work.charge {}

/-- A page is no longer than was asked for. -/
def Limited : (c : BackendCall) → Except String c.Reply → Prop
  | .keysFrom _ limit, .ok keys => keys.length ≤ limit
  | .getCommittedTimestampsBefore _ _ limit, .ok tss => tss.length ≤ limit
  | _, _ => True

/-- What an operation may spend; `gc` is the one without a bound. -/
def Op.allowance : Op → Option Work
  | .read _ _ => some ⟨1, 0, 0⟩
  | .readWithVersion _ _ => some ⟨1, 0, 0⟩
  | .readOwnWrite _ _ _ _ => some ⟨2, 0, 0⟩
  | .prewrite _ _ _ _ => some ⟨2, 1, 0⟩
  | .commit _ _ _ _ => some ⟨2, 1, 0⟩
  | .abort _ _ _ => some ⟨0, 1, 0⟩
  | .prewriteBatch _ _ writes => some ⟨2 * writes.length, 1, 0⟩
  | .commitBatch _ _ _ keys => some ⟨2 * keys.length, 1, 0⟩
  | .abortBatch _ _ keys => some ⟨keys.length, 1, 0⟩
  | .applyDirectBatch _ writes => some ⟨2 * writes.length, 1, 0⟩
  | .applyGuardedBatch _ guards writes => some ⟨3 * guards.length + 2 * writes.length, 1, 0⟩
  | .gcIncremental _ _ options => some
    { reads := 1 + 4 * options.budget.maxKeys.val
      mutations := options.budget.maxVersions.val
      rows := (options.budget.maxKeys.val + 1) + (options.budget.maxVersions.val + 1) }
  | .gc _ _ _ => none

/-! Point lookups and single mutations. -/

section Costs
variable {ε α β : Type}

/-- The tree ends in `Q`, about its result and the work done since the start. -/
abbrev Spends (Q : Except ε α → Work → Prop) (t : Engine ε α) (w : Work) : Prop :=
  Meets (meter Limited Work.charge) (fun _ _ => True) Q t w

theorem spends_backend {c : BackendCall} {wrap : String → ε} {f : c.Reply → Engine ε α}
    {Q : Except ε α → Work → Prop} {w : Work}
    (hok : ∀ a, Limited c (.ok a) → Spends Q (f a) (w.charge ⟨c, .ok a⟩))
    (herr : ∀ e msg, Q (.error e) (w.charge ⟨c, .error msg⟩)) : Spends Q (backend c wrap >>= f) w := by
  refine Meets.ask_bind trivial ?_ ?_
  · rintro a w' ⟨hlim, rfl⟩
    exact hok a hlim
  · rintro msg w' ⟨-, rfl⟩
    exact herr (wrap msg) msg

/-- At most so many reads and mutations, and no page. -/
def Costs (t : Engine ε α) (reads mutations : Nat) : Prop :=
  ∀ w, Spends (fun _ w' => w'.reads ≤ w.reads + reads ∧ w'.mutations ≤ w.mutations + mutations ∧
    w'.rows = w.rows) t w

variable {n n' m m' : Nat}

theorem Costs.ret (r : Except ε α) : Costs (.ret r) n m :=
  fun _ => ⟨Nat.le_add_right _ _, Nat.le_add_right _ _, rfl⟩

theorem Costs.mono {t : Engine ε α} (h : Costs t n m) (hn : n ≤ n') (hm : m ≤ m') :
    Costs t n' m' := by
  intro w
  refine (h w).mono ?_
  rintro r w' ⟨hreads, hmutations, hrows⟩
  exact ⟨by omega, by omega, hrows⟩

theorem Costs.bind {t : Engine ε α} {f : α → Engine ε β} (h : Costs t n m) (n' m' : Nat)
    (hf : ∀ a, Costs (f a) n' m') : Costs (t >>= f) (n + n') (m + m') := by
  intro w
  refine Meets.bind ((h w).mono ?_)
  rintro r w₁ ⟨hreads, hmutations, hrows⟩
  cases r with
  | error e => exact ⟨by omega, by omega, hrows⟩
  | ok a =>
    refine (hf a w₁).mono ?_
    rintro r w₂ ⟨hreads', hmutations', hrows'⟩
    exact ⟨by omega, by omega, hrows'.trans hrows⟩

/-- A lookup of one entry. -/
theorem costs_read_bind {c : BackendCall} {wrap : String → ε} {f : c.Reply → Engine ε α}
    (hc : c.mutates = false) (hpage : ∀ x, pageSize ⟨c, x⟩ = 0) (hf : ∀ a, Costs (f a) n m) :
    Costs (backend c wrap >>= f) (n + 1) m := by
  intro w
  refine spends_backend ?_ ?_
  · intro a _
    refine (hf a _).mono ?_
    rintro r w' ⟨hreads, hmutations, hrows⟩
    simp only [Work.charge, hc, hpage, Bool.false_eq_true, if_false] at hreads hmutations hrows
    exact ⟨by omega, by omega, by omega⟩
  · intro e msg
    simp only [Work.charge, hc, hpage, Bool.false_eq_true, if_false]
    exact ⟨by omega, by omega, by omega⟩

/-- A mutation. -/
theorem costs_mutation {c : BackendCall} {wrap : String → ε} {f : c.Reply → Engine ε α}
    (hc : c.mutates = true) (hpage : ∀ x, pageSize ⟨c, x⟩ = 0) (hf : ∀ a, Costs (f a) n m) :
    Costs (backend c wrap >>= f) n (m + 1) := by
  intro w
  refine spends_backend ?_ ?_
  · intro a _
    refine (hf a _).mono ?_
    rintro r w' ⟨hreads, hmutations, hrows⟩
    simp only [Work.charge, hc, hpage, if_true] at hreads hmutations hrows
    exact ⟨by omega, by omega, by omega⟩
  · intro e msg
    simp only [Work.charge, hc, hpage, if_true]
    exact ⟨by omega, by omega, by omega⟩

theorem costs_rejectDuplicates {keys : List Key} {e : Key → ε} {p : Engine ε α}
    (hp : Costs p n m) : Costs (rejectDuplicates keys e p) n m := by
  unfold rejectDuplicates
  split
  · exact .ret _
  · exact hp

end Costs

/-! Operations on listed keys: a bound for each key. -/

section Batches
variable {txnId : TxnId} {startTs commitTs : Timestamp}

theorem costs_read (key : Key) (readTs : Timestamp) : Costs (read key readTs) 1 0 :=
  costs_read_bind rfl (fun _ => rfl) fun _ => .ret _

theorem costs_readOwnWrite (key : Key) (readTs : Timestamp) :
    Costs (readOwnWrite key txnId startTs readTs) 2 0 := by
  refine costs_read_bind rfl (fun _ => rfl) fun intent => ?_
  cases intent with
  | none => exact costs_read key readTs
  | some i =>
    dsimp only
    split
    · exact .ret _
    · exact costs_read key readTs

theorem costs_prewrite (key : Key) (mutation : Mutation) :
    Costs (prewrite txnId startTs key mutation) 2 1 := by
  refine costs_read_bind rfl (fun _ => rfl) fun intent => ?_
  cases intent with
  | some i =>
    dsimp only
    split
    · exact .ret _
    · split
      · exact .ret _
      · split <;> exact .ret _
  | none =>
    refine costs_read_bind (n := 0) rfl (fun _ => rfl) fun latest => ?_
    split
    · exact .ret _
    · exact costs_mutation rfl (fun _ => rfl) fun _ => .ret _

theorem costs_commit (key : Key) : Costs (commit txnId key startTs commitTs) 2 1 := by
  refine costs_read_bind rfl (fun _ => rfl) fun intent => ?_
  cases intent with
  | none => exact .ret _
  | some i =>
    dsimp only
    split
    · exact .ret _
    · split
      · exact .ret _
      · split
        · exact .ret _
        · split
          · exact .ret _
          · refine costs_read_bind (n := 0) rfl (fun _ => rfl) fun latest => ?_
            split
            · split <;> exact .ret _
            · exact costs_mutation rfl (fun _ => rfl) fun _ => .ret _

theorem costs_countExisting (ws : List PhysicalWrite) (existing : Nat) :
    Costs (countExisting txnId startTs ws existing) (2 * ws.length) 0 := by
  induction ws generalizing existing with
  | nil => exact .ret _
  | cons w ws ih =>
    refine costs_read_bind (n := 2 * ws.length + 1) rfl (fun _ => rfl) fun intent => ?_
    cases intent with
    | some i =>
      dsimp only
      split
      · exact .ret _
      · split
        · exact .ret _
        · exact (ih _).mono (Nat.le_succ _) le_rfl
    | none =>
      refine costs_read_bind rfl (fun _ => rfl) fun latest => ?_
      split
      · exact .ret _
      · exact ih existing

theorem costs_collectCommits (keys : List Key) :
    Costs (collectCommits txnId startTs commitTs keys) (2 * keys.length) 0 := by
  induction keys with
  | nil => exact .ret _
  | cons key keys ih =>
    refine costs_read_bind (n := 2 * keys.length + 1) rfl (fun _ => rfl) fun intent => ?_
    cases intent with
    | none => exact .ret _
    | some i =>
      dsimp only
      split
      · exact .ret _
      · split
        · exact .ret _
        · split
          · exact .ret _
          · refine costs_read_bind rfl (fun _ => rfl) fun latest => ?_
            split
            · exact .ret _
            · exact ih.bind 0 0 fun _ => .ret _

theorem costs_collectAborts (keys : List Key) :
    Costs (collectAborts txnId startTs keys) keys.length 0 := by
  induction keys with
  | nil => exact .ret _
  | cons key keys ih =>
    refine costs_read_bind (n := keys.length) rfl (fun _ => rfl) fun intent => ?_
    refine ih.bind 0 0 fun removed => ?_
    split <;> exact .ret _

theorem costs_checkWrites (ws : List PhysicalWrite) :
    Costs (checkWrites commitTs ws) (2 * ws.length) 0 := by
  induction ws with
  | nil => exact .ret _
  | cons w ws ih =>
    refine costs_read_bind (n := 2 * ws.length + 1) rfl (fun _ => rfl) fun intent => ?_
    cases intent with
    | some i => exact .ret _
    | none =>
      refine costs_read_bind rfl (fun _ => rfl) fun latest => ?_
      split
      · exact .ret _
      · exact ih

theorem costs_checkGuards (gs : List ReadGuard) :
    Costs (checkGuards commitTs gs) (3 * gs.length) 0 := by
  induction gs with
  | nil => exact .ret _
  | cons g gs ih =>
    unfold checkGuards
    split
    · exact .ret _
    · refine costs_read_bind (n := 3 * gs.length + 2) rfl (fun _ => rfl) fun intent => ?_
      cases intent with
      | some i => exact .ret _
      | none =>
        refine costs_read_bind (n := 3 * gs.length + 1) rfl (fun _ => rfl) fun latest => ?_
        split
        · exact .ret _
        · refine costs_read_bind rfl (fun _ => rfl) fun visible => ?_
          split
          · exact .ret _
          · exact ih

/-- The last call of a batch. -/
theorem costs_last {ε : Type} {c : BackendCall} {wrap : String → ε} (hc : c.mutates = true)
    (hpage : ∀ x, pageSize ⟨c, x⟩ = 0) :
    Costs (backend c wrap >>= fun _ => (pure () : Engine ε Unit)) 0 1 :=
  costs_mutation hc hpage fun _ => .ret _

theorem costs_prewriteBatch (ws : List PhysicalWrite) :
    Costs (prewriteBatch txnId startTs ws) (2 * ws.length) 1 := by
  unfold prewriteBatch
  split
  · exact .ret _
  · refine costs_rejectDuplicates ((costs_countExisting ws 0).bind 0 1 fun existing => ?_)
    split
    · exact .ret _
    · split
      · exact .ret _
      · exact costs_last rfl fun _ => rfl

theorem costs_commitBatch (keys : List Key) :
    Costs (commitBatch txnId startTs commitTs keys) (2 * keys.length) 1 := by
  unfold commitBatch
  split
  · exact .ret _
  · refine costs_rejectDuplicates ?_
    split
    · exact .ret _
    · exact (costs_collectCommits keys).bind 0 1 fun _ =>
        costs_last rfl fun _ => rfl

theorem costs_abortBatch (keys : List Key) :
    Costs (abortBatch txnId startTs keys) keys.length 1 := by
  unfold abortBatch
  split
  · exact .ret _
  · exact costs_rejectDuplicates ((costs_collectAborts keys).bind 0 1 fun _ =>
      costs_last rfl fun _ => rfl)

theorem costs_applyDirectBatch (ws : List PhysicalWrite) :
    Costs (applyDirectBatch commitTs ws) (2 * ws.length) 1 := by
  unfold applyDirectBatch
  split
  · exact .ret _
  · exact costs_rejectDuplicates ((costs_checkWrites ws).bind 0 1 fun _ =>
      costs_last rfl fun _ => rfl)

theorem costs_applyGuardedBatch (gs : List ReadGuard) (ws : List PhysicalWrite) :
    Costs (applyGuardedBatch commitTs gs ws) (3 * gs.length + 2 * ws.length) 1 := by
  unfold applyGuardedBatch
  split
  · exact .ret _
  · split
    · exact .ret _
    · exact costs_rejectDuplicates (((costs_checkGuards gs).bind _ 1 fun _ =>
        (costs_checkWrites ws).bind 0 1 fun _ => costs_last rfl fun _ => rfl).mono
          le_rfl (by omega))

end Batches

/-! Collection. `base` stands for the entries read before the loop. -/

section Collection
variable {base reads V : Nat} {scan : GcScan} {w : Work} {options : GcOptions} {key : Key}
  {keeper : CommittedVersion}

/-- The accounts inside the loop over the keys: every removal is counted, and only where
the loop stops has an entry been read that was not removed. -/
structure GcScan.Accounts (scan : GcScan) (base reads V : Nat) (w : Work) : Prop where
  reads : w.reads ≤ reads
  mutations : w.mutations ≤ scan.versionsRemoved
  removed : scan.versionsRemoved ≤ V
  rows : w.rows ≤ base + scan.versionsRemoved + if scan.exhaustedVersions then 1 else 0

/-- The accounts at the end of a part of the loop. -/
def Spent (base reads V : Nat) : Except GcError GcScan → Work → Prop
  | .ok scan, w => scan.Accounts base reads V w
  | .error _, w => w.reads ≤ reads ∧ w.mutations ≤ V ∧ w.rows ≤ base + V + 1

theorem GcScan.Accounts.error (h : scan.Accounts base reads V w) (e : GcError) :
    Spent base reads V (.error e) w := by
  obtain ⟨hreads, hmutations, hremoved, hrows⟩ := h
  refine ⟨hreads, by omega, ?_⟩
  split at hrows <;> omega

theorem Spent.total {r : Except GcError GcScan} (h : Spent base reads V r w) :
    w.reads ≤ reads ∧ w.mutations ≤ V ∧ w.rows ≤ base + V + 1 := by
  cases r with
  | ok scan => exact GcScan.Accounts.error h .invalidGcBudget
  | error e => exact h

/-- One read of a single entry. -/
theorem GcScan.Accounts.read {c : BackendCall} (h : scan.Accounts base reads V w)
    (hc : c.mutates = false) {x : Except String c.Reply} (hpage : pageSize ⟨c, x⟩ = 0) :
    scan.Accounts base (reads + 1) V (w.charge ⟨c, x⟩) := by
  obtain ⟨hreads, hmutations, hremoved, hrows⟩ := h
  refine ⟨?_, ?_, hremoved, ?_⟩ <;> simp only [Work.charge, hc, hpage, Bool.false_eq_true, if_false]
  · omega
  · exact hmutations
  · exact hrows

theorem GcScan.Accounts.mono {reads' : Nat} (h : scan.Accounts base reads V w) (hle : reads ≤ reads') :
    scan.Accounts base reads' V w := ⟨h.reads.trans hle, h.mutations, h.removed, h.rows⟩

/-- Only two of the variables of the loop are in the accounts. -/
theorem GcScan.Accounts.congr {scan' : GcScan} (h : scan.Accounts base reads V w)
    (hremoved : scan'.versionsRemoved = scan.versionsRemoved)
    (hstop : scan'.exhaustedVersions = scan.exhaustedVersions) : scan'.Accounts base reads V w := by
  obtain ⟨hreads, hmutations, hle, hrows⟩ := h
  exact ⟨hreads, hremoved ▸ hmutations, hremoved ▸ hle, hremoved ▸ hstop ▸ hrows⟩

theorem Spent.mono {reads' : Nat} {r : Except GcError GcScan} (h : Spent base reads V r w)
    (hle : reads ≤ reads') : Spent base reads' V r w := by
  cases r with
  | ok scan => exact GcScan.Accounts.mono h hle
  | error e => exact ⟨h.1.trans hle, h.2⟩

/-- Leaving the loop allows for one entry that is not removed. -/
theorem GcScan.Accounts.stopAt (h : scan.Accounts base reads V w) (key : Key) :
    (scan.stopAt key).Accounts base reads V w := by
  obtain ⟨hreads, hmutations, hremoved, hrows⟩ := h
  refine ⟨hreads, hmutations, hremoved, ?_⟩
  show w.rows ≤ base + scan.versionsRemoved + 1
  split at hrows <;> omega

/-- Removing listed versions: each one is a mutation and a removal. -/
theorem spends_removeVersions (l : List Timestamp) {Q : Except GcError GcScan → Work → Prop}
    (hok : Q (.ok { scan with versionsRemoved := scan.versionsRemoved + l.length })
      { w with mutations := w.mutations + l.length })
    (herr : ∀ e, ∀ n ≤ l.length, Q (.error e) { w with mutations := w.mutations + n }) :
    Spends Q (removeVersions release key l scan) w := by
  induction l generalizing scan w with
  | nil => exact hok
  | cons ts l ih =>
    refine spends_backend ?_ ?_
    · intro _ _
      refine ih ?_ ?_
      · have hadd : ∀ n : Nat, n + 1 + l.length = n + (ts :: l).length := by simp; omega
        simp only [Work.charge, BackendCall.mutates, pageSize, if_true, hadd]
        exact hok
      · intro e n hn
        have h := herr e (n + 1) (Nat.succ_le_succ hn)
        simp only [Work.charge, BackendCall.mutates, pageSize, if_true]
        rwa [Nat.add_assoc, Nat.add_comm 1 n]
    · intro e msg
      exact herr e 1 (by simp)

theorem lookAhead_le (n : Nat) : lookAhead n ≤ n + 1 := Nat.mod_le _ _

theorem spends_isFinalTombstone {hasIntent : Bool} {f : Bool → Engine GcError GcScan}
    {Q : Except GcError GcScan → Work → Prop} (h : scan.Accounts base reads V w)
    (hf : ∀ final w', scan.Accounts base (reads + 1) V w' → Spends Q (f final) w')
    (herr : ∀ e w', scan.Accounts base (reads + 1) V w' → Q (.error e) w') :
    Spends Q (isFinalTombstone release options key keeper hasIntent >>= f) w := by
  refine Meets.bind ?_
  unfold isFinalTombstone
  split
  · exact spends_backend (fun _ _ => hf _ _ (h.read rfl rfl)) fun e _ => herr e _ (h.read rfl rfl)
  · exact hf _ _ (h.mono (Nat.le_succ _))

/-- The page of older versions of a key: as many entries as are removed, or one more. -/
theorem GcScan.Accounts.page (h : scan.Accounts base reads V w)
    (hrun : scan.exhaustedVersions = false) (key : Key) (t : Timestamp) (limit : Nat)
    (tss : List Timestamp) :
    let w' := w.charge ⟨.getCommittedTimestampsBefore key t limit, .ok tss⟩
    w'.reads ≤ reads + 1 ∧ w'.mutations ≤ scan.versionsRemoved ∧
      w'.rows ≤ base + scan.versionsRemoved + tss.length := by
  obtain ⟨hreads, hmutations, -, hrows⟩ := h
  rw [hrun] at hrows
  simp only [Work.charge, BackendCall.mutates, pageSize, Bool.false_eq_true, if_false] at hrows ⊢
  omega

/-- The removals of a key, within the budget left. -/
theorem spends_removals {l : List Timestamp} (hlen : scan.versionsRemoved + l.length ≤ V)
    (hreads : w.reads ≤ reads) (hmutations : w.mutations ≤ scan.versionsRemoved)
    (hrows : w.rows ≤ base + scan.versionsRemoved + l.length) :
    Spends (Spent base reads V) (removeVersions release key l scan) w := by
  refine spends_removeVersions l ⟨hreads, ?_, hlen, ?_⟩ ?_
  · dsimp only
    omega
  · dsimp only
    omega
  · intro e n hn
    refine ⟨hreads, ?_, ?_⟩ <;> dsimp only <;> omega

/-- The same where the loop stops, with one entry read ahead. -/
theorem spends_removals_stop {l : List Timestamp} (hlen : scan.versionsRemoved + l.length ≤ V)
    (hreads : w.reads ≤ reads) (hmutations : w.mutations ≤ scan.versionsRemoved)
    (hrows : w.rows ≤ base + scan.versionsRemoved + l.length + 1) :
    Spends (Spent base reads V) (removeVersions release key l scan >>= fun scan => pure (scan.stopAt key)) w := by
  refine Meets.bind (spends_removeVersions l ⟨hreads, ?_, hlen, ?_⟩ ?_)
  · show w.mutations + l.length ≤ scan.versionsRemoved + l.length
    omega
  · show w.rows ≤ base + (scan.versionsRemoved + l.length) + 1
    omega
  · intro e n hn
    refine ⟨hreads, ?_, ?_⟩ <;> dsimp only <;> omega

section Keeper
variable {limit : Nat} (h : scan.Accounts base reads V w) (hrun : scan.exhaustedVersions = false)
  (hlimit : limit = V - scan.versionsRemoved)
include h hrun hlimit

theorem spends_gcKeyNormal :
    Spends (Spent base (reads + 1) V) (gcKeyNormal release key keeper limit scan) w := by
  have hremoved := h.removed
  refine spends_backend ?_ fun e _ => (h.read rfl rfl).error e
  intro tss hlim
  have hpage := h.page hrun key keeper.commitTs (lookAhead limit) tss
  have htss : tss.length ≤ limit + 1 := hlim.trans (lookAhead_le limit)
  dsimp only at hpage ⊢
  split
  case isTrue hmore =>
    rw [release_sub (by omega)]
    refine spends_removals_stop ?_ hpage.1 hpage.2.1 ?_ <;> simp only [List.length_dropLast] <;> omega
  case isFalse hfits =>
    refine spends_removals ?_ hpage.1 hpage.2.1 hpage.2.2
    dsimp only
    omega

theorem spends_gcKeyFinal (hpos : limit ≠ 0) :
    Spends (Spent base (reads + 1) V) (gcKeyFinal release key keeper limit scan) w := by
  have hremoved := h.removed
  refine spends_backend ?_ fun e _ => (h.read rfl rfl).error e
  intro tss hlim
  have hpage := h.page hrun key keeper.commitTs (lookAhead limit) tss
  have htss : tss.length ≤ limit + 1 := hlim.trans (lookAhead_le limit)
  dsimp only at hpage ⊢
  split
  case isTrue hmore =>
    rw [release_sub (by omega)]
    refine spends_removals_stop ?_ hpage.1 hpage.2.1 ?_ <;> simp only [List.length_dropLast] <;> omega
  case isFalse hfits =>
    split
    case isTrue hroom =>
      -- one call removes the tombstone and the whole page
      refine spends_backend ?_ ?_
      · intro u _
        refine ⟨hpage.1, ?_, ?_, ?_⟩
        · exact (Nat.succ_le_succ hpage.2.1).trans (by dsimp only; omega)
        · dsimp only
          omega
        · refine hpage.2.2.trans ?_
          dsimp only
          omega
      · intro e msg
        refine ⟨hpage.1, (Nat.succ_le_succ hpage.2.1).trans ?_, hpage.2.2.trans ?_⟩ <;> omega
    case isFalse hfull =>
      refine spends_removals_stop ?_ hpage.1 hpage.2.1 ?_
      · dsimp only
        omega
      · dsimp only
        omega

end Keeper

theorem spends_gcKeyExhausted {hasIntent : Bool} (h : scan.Accounts base reads V w)
    (hrun : scan.exhaustedVersions = false) :
    Spends (Spent base (reads + 2) V) (gcKeyExhausted release options key keeper hasIntent scan) w := by
  refine spends_backend ?_ fun e _ => ((h.read rfl rfl).mono (Nat.le_succ _)).error e
  intro tss hlim
  have hpage := h.page hrun key keeper.commitTs 1 tss
  have htss : tss.length ≤ 1 := hlim
  dsimp only at hpage
  split
  case isTrue hmore =>
    refine ⟨hpage.1.trans (Nat.le_succ _), hpage.2.1, h.removed, hpage.2.2.trans ?_⟩
    show _ ≤ base + scan.versionsRemoved + 1
    omega
  case isFalse hnone =>
    have hlen : tss.length = 0 := by simpa using hnone
    have hacc : scan.Accounts base (reads + 1) V
        (w.charge ⟨.getCommittedTimestampsBefore key keeper.commitTs 1, .ok tss⟩) := by
      refine ⟨hpage.1, hpage.2.1, h.removed, hpage.2.2.trans ?_⟩
      rw [hlen]
      omega
    refine spends_isFinalTombstone hacc ?_ fun e w' hw' => hw'.error e
    intro final w' hw'
    split
    · exact hw'.stopAt key
    · exact hw'

theorem spends_gcKeyKeeper {hasIntent : Bool}
    (h : scan.Accounts base reads options.budget.maxVersions.val w)
    (hrun : scan.exhaustedVersions = false) :
    Spends (Spent base (reads + 2) options.budget.maxVersions.val)
      (gcKeyKeeper release options key keeper hasIntent scan) w := by
  unfold gcKeyKeeper
  rw [release_sub h.removed]
  split
  case isTrue => exact spends_gcKeyExhausted h hrun
  case isFalse hpos =>
    refine spends_isFinalTombstone h ?_ fun e w' hw' => (hw'.mono (Nat.le_succ _)).error e
    intro final w' hw'
    split
    · exact spends_gcKeyFinal hw' hrun rfl hpos
    · exact spends_gcKeyNormal hw' hrun rfl

/-- A key costs four reads. -/
theorem spends_gcKey {sp : Timestamp} (h : scan.Accounts base reads options.budget.maxVersions.val w)
    (hrun : scan.exhaustedVersions = false) :
    Spends (Spent base (reads + 4) options.budget.maxVersions.val) (gcKey release sp options key scan) w := by
  refine spends_backend ?_ fun e _ => ((h.read rfl rfl).mono (by omega)).error e
  intro intent _
  have hintent := h.read (c := .getIntent key) (x := .ok intent) rfl rfl
  refine spends_backend ?_ fun e _ => ((hintent.read rfl rfl).mono (by omega)).error e
  intro visible _
  have hvisible := hintent.read (c := .getVisibleCommitted key sp) (x := .ok visible) rfl rfl
  cases visible with
  | none => exact (hvisible.mono (Nat.le_add_right _ 2)).congr rfl rfl
  | some keeper => exact spends_gcKeyKeeper (hvisible.congr rfl rfl) hrun

theorem spends_gcKeys {sp : Timestamp} (keys : List Key)
    (h : scan.Accounts base reads options.budget.maxVersions.val w)
    (hrun : scan.exhaustedVersions = false) :
    Spends (Spent base (reads + 4 * keys.length) options.budget.maxVersions.val)
      (gcKeys release sp options keys scan) w := by
  induction keys generalizing reads scan w with
  | nil => exact h
  | cons key keys ih =>
    have hlen : reads + 4 + 4 * keys.length = reads + 4 * (key :: keys).length := by simp; omega
    refine Meets.bind ((spends_gcKey h hrun).mono ?_)
    intro r w' hr
    cases r with
    | error e => exact Spent.mono (r := .error e) hr (by omega)
    | ok scan' =>
      dsimp only
      split
      case isTrue => exact Spent.mono (r := .ok scan') hr (by omega)
      case isFalse hgo =>
        rw [← hlen]
        exact ih hr (by simpa using hgo)

/-- A step: the keys of its page, then the loop over all but one of them. -/
theorem spends_gcIncremental (sp : Timestamp) (cursor : Option IncrementalGcCursor) (options : GcOptions) :
    Spends (fun _ w => w ≤ ⟨1 + 4 * options.budget.maxKeys.val, options.budget.maxVersions.val,
        (options.budget.maxKeys.val + 1) + (options.budget.maxVersions.val + 1)⟩)
      (gcIncremental sp cursor options) {} := by
  unfold gcIncremental Build.gcIncremental
  split
  · exact ⟨Nat.zero_le _, Nat.zero_le _, Nat.zero_le _⟩
  · refine spends_backend ?_ ?_
    · intro keys hlim
      have hkeys : keys.length ≤ options.budget.maxKeys.val + 1 := hlim.trans (lookAhead_le _)
      have hstart : ({} : GcScan).Accounts (options.budget.maxKeys.val + 1) 1
          options.budget.maxVersions.val (Work.charge {} ⟨.keysFrom (cursor.bind (·.nextKey))
            (lookAhead options.budget.maxKeys.val), .ok keys⟩) := by
        refine ⟨le_rfl, le_rfl, Nat.zero_le _, ?_⟩
        show 0 + keys.length ≤ _
        omega
      refine Meets.bind ((spends_gcKeys (keys.take options.budget.maxKeys.val) hstart rfl).mono ?_)
      intro r w hr
      have htake : (keys.take options.budget.maxKeys.val).length ≤ options.budget.maxKeys.val :=
        List.length_take_le _ _
      obtain ⟨hreads, hmutations, hrows⟩ := hr.total
      have hend : w ≤ ⟨1 + 4 * options.budget.maxKeys.val, options.budget.maxVersions.val,
          (options.budget.maxKeys.val + 1) + (options.budget.maxVersions.val + 1)⟩ :=
        ⟨hreads.trans (by dsimp only; omega), hmutations, hrows.trans (by dsimp only; omega)⟩
      cases r with
      | error e => exact hend
      | ok scan => exact hend
    · intro e msg
      exact ⟨Nat.le_add_right _ _, Nat.zero_le _, Nat.zero_le _⟩

end Collection

theorem costs_planCollapse (options : KeyGcOptions) (key : Key) (keeper : CommittedVersion) :
    Costs (planCollapse options key keeper) 2 0 := by
  unfold planCollapse
  split
  · refine costs_read_bind (n := 1) rfl (fun _ => rfl) fun intent => ?_
    split
    · exact costs_read_bind rfl (fun _ => rfl) fun _ => .ret _
    · exact .ret _
  · exact .ret _

/-- A plan: the keeper, the intent and the latest version, and one page. -/
theorem spends_planKeyGc (key : Key) (sp : Timestamp) (options : KeyGcOptions) :
    Spends (fun _ w => w ≤ ⟨4, 0, options.maxVersionsExamined.val⟩) (planKeyGc key sp options) {} := by
  unfold planKeyGc
  split
  · exact ⟨Nat.zero_le _, Nat.zero_le _, Nat.zero_le _⟩
  · refine spends_backend ?_ fun e msg => ⟨Nat.le_add_left 1 3, le_rfl, Nat.zero_le _⟩
    intro visible _
    cases visible with
    | none => exact ⟨Nat.le_add_left 1 3, le_rfl, Nat.zero_le _⟩
    | some keeper =>
      refine Meets.bind ((costs_planCollapse options key keeper _).mono ?_)
      rintro r w ⟨hreads, hmutations, hrows⟩
      have hreads : w.reads ≤ 3 := hreads
      have hmutations : w.mutations ≤ 0 := hmutations
      have hrows : w.rows = 0 := hrows
      cases r with
      | error e => exact ⟨hreads.trans (Nat.le_succ 3), hmutations, hrows.trans_le (Nat.zero_le _)⟩
      | ok collapse =>
        refine spends_backend ?_ ?_
        · intro tss hlim
          refine ⟨Nat.succ_le_succ hreads, hmutations, ?_⟩
          show w.rows + tss.length ≤ _
          rw [hrows, Nat.zero_add]
          exact hlim
        · intro e msg
          exact ⟨Nat.succ_le_succ hreads, hmutations, hrows.trans_le (Nat.zero_le _)⟩

/-! Operations. -/

theorem Costs.spends {ε α : Type} {t : Engine ε α} {n m : Nat} (h : Costs t n m) :
    Spends (fun _ w => w ≤ ⟨n, m, 0⟩) t {} := by
  refine (h {}).mono ?_
  rintro r w ⟨hreads, hmutations, hrows⟩
  exact ⟨hreads.trans_eq (Nat.zero_add n), hmutations.trans_eq (Nat.zero_add m), hrows.le⟩

theorem Op.spends_allowance {op : Op} {w₀ : Work} (h : op.allowance = some w₀) :
    Spends (fun _ w => w ≤ w₀) op.program.tree {} := by
  cases op with
  | gc fuel sp options => cases h
  | gcIncremental sp cursor options =>
    cases h
    exact spends_gcIncremental sp cursor options
  | read key readTs => cases h; exact (costs_read key readTs).spends
  | readWithVersion key readTs =>
    cases h
    exact Costs.spends (costs_read_bind rfl (fun _ => rfl) fun _ => .ret _)
  | readOwnWrite key txnId startTs readTs => cases h; exact (costs_readOwnWrite key readTs).spends
  | prewrite txnId startTs key mutation => cases h; exact (costs_prewrite key mutation).spends
  | commit txnId key startTs commitTs => cases h; exact (costs_commit key).spends
  | abort txnId key startTs =>
    cases h
    exact Costs.spends (costs_mutation rfl (fun _ => rfl) fun _ => .ret _)
  | prewriteBatch txnId startTs writes => cases h; exact (costs_prewriteBatch writes).spends
  | commitBatch txnId startTs commitTs keys => cases h; exact (costs_commitBatch keys).spends
  | abortBatch txnId startTs keys => cases h; exact (costs_abortBatch keys).spends
  | applyDirectBatch commitTs writes => cases h; exact (costs_applyDirectBatch writes).spends
  | applyGuardedBatch commitTs guards writes =>
    cases h
    exact (costs_applyGuardedBatch guards writes).spends

/-- What an execution on a backend that keeps to its limits has spent. -/
theorem Spends.exec {σ ε α : Type} {D : Device BackendCall.Reply String σ}
    (hD : ∀ c s x s', D c s x s' → Limited c x) {t : Engine ε α} {w₀ : Work}
    (ht : Spends (fun _ w => w ≤ w₀) t {}) {s s' : σ} {es : List (CallEvent BackendCall.Reply String)}
    {r : Except ε α} (he : Exec D t s es r s') : work es ≤ w₀ :=
  Meets.exec ht (he.metered hD Work.charge {})

/-- Every operation but `gc`, and every plan, keeps within its allowance, on every
backend that keeps to the limits it is given. -/
theorem work_bounded {σ : Type} {D : Device BackendCall.Reply String σ}
    (hD : ∀ c s x s', D c s x s' → Limited c x) :
    (∀ (op : Op) (w : Work) (s s' : σ) (es : List (CallEvent BackendCall.Reply String))
      (r : Except op.program.ε op.program.α),
      op.allowance = some w → Exec D op.program.tree s es r s' → work es ≤ w) ∧
    ∀ (key : Key) (sp : Timestamp) (options : KeyGcOptions) (s s' : σ)
      (es : List (CallEvent BackendCall.Reply String)) (r : Except GcError KeyGcPlan),
      Exec D (planKeyGc key sp options) s es r s' → work es ≤ ⟨4, 0, options.maxVersionsExamined.val⟩ := by
  constructor
  · intro op w s s' es r hw he
    exact Spends.exec hD (Op.spends_allowance hw) he
  · intro key sp options s s' es r he
    exact Spends.exec hD (spends_planKeyGc key sp options) he

/-- The in-memory backend keeps to its limits, also where its calls may fail. -/
theorem limited_memCall_faulty (c : BackendCall) (b : InMemoryBackend) (x : Except String c.Reply)
    (b' : InMemoryBackend) (h : memCall.faulty c b x b') : Limited c x := by
  cases x with
  | error msg => cases c <;> trivial
  | ok a =>
    rcases h with h | ⟨⟨msg, hmsg⟩, -⟩
    · cases c with
      | keysFrom start limit =>
        cases h
        show (b.keysFrom start limit).length ≤ limit
        cases start with
        | none => exact List.length_take_le _ _
        | some s => exact List.length_take_le _ _
      | getCommittedTimestampsBefore key t limit =>
        cases h
        show (b.getCommittedTimestampsBefore key t limit).length ≤ limit
        rw [InMemoryBackend.getCommittedTimestampsBefore_eq]
        exact List.length_take_le _ _
      | _ => trivial
    · cases hmsg

/-- A step that uses its allowance up: the final tombstone of the first key has one older
version more than the step may remove. -/
theorem work_bounded_used_up :
    let b := stateAfter [.applyDirectBatch 1 [⟨[1], some [5]⟩, ⟨[2], some [5]⟩],
      .applyDirectBatch 2 [⟨[1], some [6]⟩], .applyDirectBatch 3 [⟨[1], none⟩]]
    let step := gcIncremental 4 none ⟨⟨1, 1⟩, true⟩
    work (calls memCall step b) = ⟨5, 1, 4⟩ ∧ work (calls memCall step b) ≤ ⟨1 + 4 * 1, 1, 2 + 2⟩ := by
  intro b step
  refine ⟨by decide +kernel, ?_⟩
  exact (work_bounded limited_memCall_faulty).1 (.gcIncremental 4 none ⟨⟨1, 1⟩, true⟩) _ b _ _ _ rfl
    (exec_calls (fun _ _ => .inl rfl) step b)

end NexirMvcc
