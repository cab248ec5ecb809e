import NexirMvcc.Lookup
import NexirMvcc.Foundation.KeyOrder

/- Prefix scans (`keys_from_prefix`). The scan starts at the prefix or at the
   cursor, stops at the first key that does not begin with the prefix, and drops
   a key only if it is the one pushed last. It misses nothing and repeats nothing:
   the keys that begin with a prefix are an interval, and the versions of a key
   stand side by side.

   What is proved:
     1. `keysFromPrefix_eq` — a scan returns the first `limit` committed keys that
        begin with the prefix and are not below the cursor.
     2. `pageThrough_eq` — paging with the last key followed by a zero byte
        returns every such key once and then an empty page.
   `keysFromPrefix_exact` is both, in terms of the stored versions. -/
namespace NexirMvcc
open VersionHistory

namespace InMemoryBackend
variable {b : InMemoryBackend} {pfx : Key} {start : Option Key} {limit : Nat} {k : Key}

/-- The key has a committed version. -/
def Committed (b : InMemoryBackend) (k : Key) : Prop :=
  ∃ (ts : Timestamp) (value : Option Value), b.committed[toLex (k, ts)]? = some value

/-- A scan that is to find the keys `all`, has pushed `result` and has the entries
`es` still to go through. -/
structure Scanning (pfx : Key) (all result : List Key)
    (es : List ((Key ×ₗ Timestamp) × Option Value)) : Prop where
  pushed : result <+: all
  missing : ∀ k ∈ all, k ∈ result ∨ pfx <+: k ∧ ∃ e ∈ es, (ofLex e.1).1 = k
  wanted : ∀ e ∈ es, pfx <+: (ofLex e.1).1 → (ofLex e.1).1 ∈ all
  sorted : es.Pairwise (fun x y => (ofLex x.1).1 ≤ (ofLex y.1).1)
  interval : es.Pairwise (fun x y => pfx <+: (ofLex y.1).1 → pfx <+: (ofLex x.1).1)
  behind : ∀ k ∈ result, ∀ e ∈ es, k ≤ (ofLex e.1).1

section Scan
variable {all result : List Key} {e : (Key ×ₗ Timestamp) × Option Value}
  {es : List ((Key ×ₗ Timestamp) × Option Value)}

/-- Where no entry left begins with the prefix, all keys are found. -/
theorem Scanning.complete (h : Scanning pfx all result es) (hall : all.Pairwise (· < ·))
    (hend : ∀ e ∈ es, ¬ pfx <+: (ofLex e.1).1) : result = all := by
  refine KeyOrder.eq_of_isPrefix_of_mem hall h.pushed ?_
  intro k hk
  refine (h.missing k hk).resolve_right ?_
  rintro ⟨hp, e, he, rfl⟩
  exact hend e he hp

/-- The first key without the prefix ends the scan. -/
theorem Scanning.ends (h : Scanning pfx all result (e :: es)) (hp : ¬ pfx <+: (ofLex e.1).1) :
    ∀ e' ∈ e :: es, ¬ pfx <+: (ofLex e'.1).1 := by
  refine List.forall_mem_cons.mpr ⟨hp, ?_⟩
  intro e' he' hp'
  exact hp ((List.pairwise_cons.mp h.interval).1 e' he' hp')

/-- A key that was not pushed yet is the next one to push. -/
theorem Scanning.next (h : Scanning pfx all result (e :: es)) (hall : all.Pairwise (· < ·))
    (hp : pfx <+: (ofLex e.1).1) (hk : result.getLast? ≠ some (ofLex e.1).1) :
    result ++ [(ofLex e.1).1] <+: all := by
  have hfresh : (ofLex e.1).1 ∉ result := by
    intro hm
    refine hk ((KeyOrder.getLast?_eq_some_iff_of_sorted (f := id) ?_).mpr ⟨hm, ?_⟩)
    · exact hall.sublist h.pushed.sublist
    · exact fun k hk => h.behind k hk e List.mem_cons_self
  refine KeyOrder.append_isPrefix hall h.pushed (h.wanted e List.mem_cons_self hp) hfresh ?_
  intro k hm hk
  obtain ⟨-, e', he', rfl⟩ := (h.missing k hm).resolve_left hk
  rcases List.mem_cons.mp he' with rfl | he'
  · exact le_rfl
  · exact (List.pairwise_cons.mp h.sorted).1 e' he'

/-- Once its key is in the result, an entry is done. -/
theorem Scanning.rest (h : Scanning pfx all result (e :: es)) {result' : List Key}
    (hpushed : result' <+: all) (hmem : ∀ k, k ∈ result' ↔ k ∈ result ∨ k = (ofLex e.1).1) :
    Scanning pfx all result' es := by
  obtain ⟨hle, hsorted⟩ := List.pairwise_cons.mp h.sorted
  refine ⟨hpushed, ?_, ?_, hsorted, (List.pairwise_cons.mp h.interval).2, ?_⟩
  · intro k hk
    rcases h.missing k hk with hm | ⟨hp, e', he', rfl⟩
    · exact .inl ((hmem k).mpr (.inl hm))
    · rcases List.mem_cons.mp he' with rfl | he'
      · exact .inl ((hmem _).mpr (.inr rfl))
      · exact .inr ⟨hp, e', he', rfl⟩
  · exact fun e' he' => h.wanted e' (List.mem_cons_of_mem e he')
  · intro k hk e' he'
    rcases (hmem k).mp hk with hm | rfl
    · exact h.behind k hm e' (List.mem_cons_of_mem e he')
    · exact hle e' he'

/-- The loop completes the result to the first `limit` keys. -/
theorem scanPrefix_eq (hall : all.Pairwise (· < ·)) (h : Scanning pfx all result es)
    (hlen : result.length < limit) : scanPrefix pfx limit result es = all.take limit := by
  induction es generalizing result with
  | nil =>
    rw [scanPrefix, ← h.complete hall (by simp), List.take_of_length_le hlen.le]
  | cons e es ih =>
    rw [scanPrefix]
    by_cases hp : pfx <+: (ofLex e.1).1
    · rw [if_neg (not_not.mpr hp)]
      by_cases hk : result.getLast? = some (ofLex e.1).1
      -- another version of the key pushed last
      · rw [if_neg (not_not.mpr hk)]
        refine ih (h.rest h.pushed ?_) hlen
        exact fun k => (or_iff_left_of_imp fun he => he ▸ List.mem_of_getLast? hk).symm
      · have hnext := h.next hall hp hk
        rw [if_pos hk]
        by_cases hfull : (result ++ [(ofLex e.1).1]).length = limit
        · rw [if_pos hfull, ← hfull]
          exact List.prefix_iff_eq_take.mp hnext
        · rw [if_neg hfull]
          refine ih (h.rest hnext (by simp)) ?_
          rw [List.length_append, List.length_singleton] at hfull ⊢
          omega
    · rw [if_pos hp, ← h.complete hall (h.ends hp), List.take_of_length_le hlen.le]

end Scan

/-- The committed keys that begin with `pfx`, from `lo` on. -/
def prefixKeys (b : InMemoryBackend) (pfx lo : Key) : List Key :=
  (((b.committed.rangeFrom (lowest lo)).map (fun e => (ofLex e.1).1)).filter (pfx <+: ·)).dedup

theorem rangeFrom_keys_sorted (b : InMemoryBackend) (lo : Key) :
    (b.committed.rangeFrom (lowest lo)).Pairwise (fun x y => (ofLex x.1).1 ≤ (ofLex y.1).1) := by
  refine List.Pairwise.imp ?_ (OrderedMap.between_sorted b.committed _)
  rintro ⟨a, x⟩ ⟨a', x'⟩ hlt
  obtain ⟨k, t, rfl⟩ := exists_toLex a
  obtain ⟨k', t', rfl⟩ := exists_toLex a'
  exact (toLex_lt_toLex.mp hlt).elim le_of_lt fun h => le_of_eq h.1

theorem mem_rangeFrom_lowest {lo : Key} {kts : Key ×ₗ Timestamp} {x : Option Value} :
    (kts, x) ∈ b.committed.rangeFrom (lowest lo) ↔ b.committed[kts]? = some x ∧ lo ≤ (ofLex kts).1 := by
  rw [OrderedMap.rangeFrom, OrderedMap.mem_between, decide_eq_true_iff]
  obtain ⟨k, t, rfl⟩ := exists_toLex kts
  refine and_congr_right fun _ => ?_
  rw [lowest, toLex_le_toLex, le_iff_lt_or_eq (a := lo)]
  exact or_congr_right (and_iff_left (Fin.zero_le t))

theorem mem_prefixKeys {lo : Key} :
    k ∈ b.prefixKeys pfx lo ↔ b.Committed k ∧ pfx <+: k ∧ lo ≤ k := by
  rw [prefixKeys, List.mem_dedup, List.mem_filter, List.mem_map, decide_eq_true_iff]
  constructor
  · rintro ⟨⟨⟨kts, x⟩, hm, rfl⟩, hp⟩
    obtain ⟨hx, hlo⟩ := mem_rangeFrom_lowest.mp hm
    exact ⟨⟨_, x, hx⟩, hp, hlo⟩
  · rintro ⟨⟨t, x, hx⟩, hp, hlo⟩
    exact ⟨⟨(toLex (k, t), x), mem_rangeFrom_lowest.mpr ⟨hx, hlo⟩, rfl⟩, hp⟩

theorem prefixKeys_sorted (b : InMemoryBackend) (pfx lo : Key) :
    (b.prefixKeys pfx lo).Pairwise (· < ·) := by
  have hle := (List.pairwise_map.mpr (b.rangeFrom_keys_sorted lo)).filter (pfx <+: ·)
  have hle' := hle.sublist (List.dedup_sublist _)
  exact hle'.imp₂ (fun _ _ h hne => lt_of_le_of_ne h hne) (List.nodup_dedup _)

/-- A scan that is not refused returns a page of the keys from its start on. -/
theorem keysFromPrefix_eq (hpfx : pfx ≠ []) (hstart : ∀ s, start = some s → pfx <+: s) :
    b.keysFromPrefix pfx start limit = .ok ((b.prefixKeys pfx (start.getD pfx)).take limit) := by
  have hlo : pfx <+: start.getD pfx := by
    cases start with
    | none => exact List.prefix_rfl
    | some s => exact hstart s rfl
  have hany : start.any (fun s => ¬ pfx <+: s) = false := by
    cases start with
    | none => rfl
    | some s => simpa using hstart s rfl
  unfold keysFromPrefix
  by_cases h0 : limit = 0
  · rw [if_pos h0, h0, List.take_zero]
  · rw [if_neg h0, if_neg (by simpa using hpfx), if_neg (by rw [hany]; simp)]
    congr 1
    refine scanPrefix_eq (b.prefixKeys_sorted pfx _) ⟨List.nil_prefix, ?_, ?_,
      b.rangeFrom_keys_sorted _, ?_, by simp⟩ (Nat.pos_of_ne_zero h0)
    · intro k hk
      obtain ⟨⟨t, x, hx⟩, hp, hle⟩ := mem_prefixKeys.mp hk
      exact .inr ⟨hp, (toLex (k, t), x), mem_rangeFrom_lowest.mpr ⟨hx, hle⟩, rfl⟩
    · rintro ⟨kts, x⟩ hm hp
      obtain ⟨hx, hle⟩ := mem_rangeFrom_lowest.mp hm
      exact mem_prefixKeys.mpr ⟨⟨_, x, hx⟩, hp, hle⟩
    -- the keys that begin with the prefix are an interval from the start on
    · refine List.Pairwise.imp_of_mem ?_ (b.rangeFrom_keys_sorted _)
      rintro ⟨kts, x⟩ ⟨kts', x'⟩ hm - hle hp
      exact KeyOrder.isPrefix_of_between (mem_rangeFrom_lowest.mp hm).2 hle hlo hp

/-! Paging. -/

/-- Scan page by page; the next page starts at the last key followed by a zero
byte, and an empty page is the last. -/
def pageThrough (b : InMemoryBackend) (pfx : Key) (pageSize : Nat) :
    Nat → Option Key → Except String (List (List Key))
  | 0, _ => .ok []
  | fuel + 1, start => do
    let page ← b.keysFromPrefix pfx start pageSize
    match page.getLast? with
    | none => .ok [page]
    | some last =>
      let rest ← b.pageThrough pfx pageSize fuel (some (last ++ [0]))
      .ok (page :: rest)

theorem pageThrough_last {n fuel : Nat} (h : b.keysFromPrefix pfx start n = .ok []) :
    b.pageThrough pfx n (fuel + 1) start = .ok [[]] := by
  rw [pageThrough, h]
  rfl

theorem pageThrough_next {n fuel : Nat} {page : List Key} {last : Key} {rest : List (List Key)}
    (h : b.keysFromPrefix pfx start n = .ok page) (hlast : page.getLast? = some last)
    (hrest : b.pageThrough pfx n fuel (some (last ++ [0])) = .ok rest) :
    b.pageThrough pfx n (fuel + 1) start = .ok (page :: rest) := by
  rw [pageThrough, h]
  simp only [bind, Except.bind, hlast, hrest]

/-- The keys from the cursor after a page on are those the page has left. -/
theorem prefixKeys_next {lo last : Key} {n : Nat}
    (h : ((b.prefixKeys pfx lo).take n).getLast? = some last) :
    b.prefixKeys pfx (last ++ [0]) = (b.prefixKeys pfx lo).drop n := by
  refine (b.prefixKeys_sorted pfx _).eq_of_mem_iff ((b.prefixKeys_sorted pfx lo).drop) ?_
  intro k
  have hlast : lo ≤ last := (mem_prefixKeys.mp (List.mem_of_mem_take (List.mem_of_getLast? h))).2.2
  have hsucc : last ++ [0] ≤ k ↔ last < k := KeyOrder.append_bot_le_iff
  rw [KeyOrder.mem_drop_iff_of_sorted (b.prefixKeys_sorted pfx lo) h, mem_prefixKeys, mem_prefixKeys,
    hsucc]
  constructor
  · rintro ⟨hc, hp, hlt⟩
    exact ⟨⟨hc, hp, hlast.trans hlt.le⟩, hlt⟩
  · rintro ⟨⟨hc, hp, -⟩, hlt⟩
    exact ⟨hc, hp, hlt⟩

theorem pageThrough_eq (hpfx : pfx ≠ []) {n : Nat} (hn : 0 < n)
    (hstart : ∀ s, start = some s → pfx <+: s) :
    ∃ pages : List (List Key), (∀ page ∈ pages, page ≠ []) ∧
      pages.flatten = b.prefixKeys pfx (start.getD pfx) ∧
      ∀ fuel, pages.length < fuel → b.pageThrough pfx n fuel start = .ok (pages ++ [[]]) := by
  -- by induction on the number of keys left
  induction hm : (b.prefixKeys pfx (start.getD pfx)).length using Nat.strong_induction_on
    generalizing start with
  | _ m ih =>
  have hpage := @keysFromPrefix_eq b pfx start n hpfx hstart
  cases hlast : ((b.prefixKeys pfx (start.getD pfx)).take n).getLast? with
  | none =>
    have hnil : b.prefixKeys pfx (start.getD pfx) = [] := by
      have := List.getLast?_eq_none_iff.mp hlast
      simpa [hn.ne'] using this
    refine ⟨[], by simp, hnil.symm, ?_⟩
    intro fuel hfuel
    obtain ⟨fuel, rfl⟩ := Nat.exists_eq_succ_of_ne_zero hfuel.ne'
    exact pageThrough_last (by rw [hpage, hnil, List.take_nil])
  | some last =>
    have hp : pfx <+: last :=
      (mem_prefixKeys.mp (List.mem_of_mem_take (List.mem_of_getLast? hlast))).2.1
    have hnext := prefixKeys_next hlast
    have hlt : (b.prefixKeys pfx (last ++ [0])).length < m := by
      have hpos : 0 < (b.prefixKeys pfx (start.getD pfx)).length :=
        List.length_pos_of_mem (List.mem_of_mem_take (List.mem_of_getLast? hlast))
      rw [hnext, List.length_drop]
      omega
    have hstart' : ∀ s, some (last ++ [0]) = some s → pfx <+: s := by
      rintro s ⟨⟩
      exact hp.trans (List.prefix_append last [0])
    obtain ⟨pages, hne, hflat, hrun⟩ := ih _ hlt hstart' rfl
    refine ⟨(b.prefixKeys pfx (start.getD pfx)).take n :: pages, ?_, ?_, ?_⟩
    · refine List.forall_mem_cons.mpr ⟨?_, hne⟩
      intro hnil
      rw [hnil] at hlast
      cases hlast
    · rw [List.flatten_cons, hflat]
      show _ ++ b.prefixKeys pfx (last ++ [0]) = _
      rw [hnext, List.take_append_drop]
    · intro fuel hfuel
      obtain ⟨fuel, rfl⟩ := Nat.exists_eq_succ_of_ne_zero (Nat.ne_of_gt (Nat.zero_lt_of_lt hfuel))
      exact pageThrough_next hpage hlast (hrun fuel (by simpa using hfuel))

end InMemoryBackend

/-- Prefix scans and paging through a prefix are exact. -/
theorem keysFromPrefix_exact (b : InMemoryBackend) (pfx : Key) (hpfx : pfx ≠ []) :
    (∀ start limit, (∀ s, start = some s → pfx <+: s) →
      ∃ ks : List Key, ks.Pairwise (· < ·) ∧
        (∀ k, k ∈ ks ↔ b.Committed k ∧ pfx <+: k ∧ ∀ s, start = some s → s ≤ k) ∧
        b.keysFromPrefix pfx start limit = .ok (ks.take limit)) ∧
    ∀ n, 0 < n → ∃ pages : List (List Key), (∀ page ∈ pages, page ≠ []) ∧
      pages.flatten.Pairwise (· < ·) ∧
      (∀ k, k ∈ pages.flatten ↔ b.Committed k ∧ pfx <+: k) ∧
      ∀ fuel, pages.length < fuel → b.pageThrough pfx n fuel none = .ok (pages ++ [[]]) := by
  constructor
  · intro start limit hstart
    refine ⟨b.prefixKeys pfx (start.getD pfx), b.prefixKeys_sorted pfx _, ?_,
      InMemoryBackend.keysFromPrefix_eq hpfx hstart⟩
    intro k
    rw [InMemoryBackend.mem_prefixKeys]
    refine and_congr_right fun _ => and_congr_right fun hp => ?_
    cases start with
    | none => simpa using KeyOrder.le_of_isPrefix hp
    | some s => simp
  · intro n hn
    obtain ⟨pages, hne, hflat, hrun⟩ :=
      @InMemoryBackend.pageThrough_eq b pfx none hpfx n hn (by simp)
    refine ⟨pages, hne, ?_, ?_, hrun⟩
    · rw [hflat]
      exact b.prefixKeys_sorted pfx _
    · intro k
      rw [hflat, InMemoryBackend.mem_prefixKeys]
      exact ⟨fun h => ⟨h.1, h.2.1⟩, fun h => ⟨h.1, h.2, KeyOrder.le_of_isPrefix h.2⟩⟩

/-- Keys that are prefixes of each other, two versions of one of them, and a key
with an intent only. -/
theorem keysFromPrefix_exact_nested_keys :
    let b := (InMemoryBackend.new.putCommittedBatch [⟨[1], 3, none⟩, ⟨[1, 0], 1, some [7]⟩,
      ⟨[1, 0], 2, some [8]⟩, ⟨[1, 2], 1, some [9]⟩, ⟨[2], 1, none⟩]).putIntent
      ⟨[1, 1], 5, 4, .delete, none⟩
    b.keysFromPrefix [1] (some [1, 0]) 5 = .ok [[1, 0], [1, 2]] ∧
    (∃ ks : List Key, ks.Pairwise (· < ·) ∧
      (∀ k, k ∈ ks ↔ b.Committed k ∧ [1] <+: k ∧ ∀ s, some [1, 0] = some s → s ≤ k) ∧
      b.keysFromPrefix [1] (some [1, 0]) 5 = .ok (ks.take 5)) ∧
    ∃ pages : List (List Key), (∀ page ∈ pages, page ≠ []) ∧ pages.flatten.Pairwise (· < ·) ∧
      (∀ k, k ∈ pages.flatten ↔ b.Committed k ∧ [1] <+: k) ∧
      ∀ fuel, pages.length < fuel → b.pageThrough [1] 2 fuel none = .ok (pages ++ [[]]) := by
  intro b
  have heval : b.keysFromPrefix [1] (some [1, 0]) 5 = .ok [[1, 0], [1, 2]] := by decide +kernel
  clear_value b
  have hexact := keysFromPrefix_exact b [1] (by decide)
  refine ⟨heval, hexact.1 (some [1, 0]) 5 ?_, hexact.2 2 (by decide)⟩
  rintro s ⟨⟩
  decide

end NexirMvcc
