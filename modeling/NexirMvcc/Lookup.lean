import NexirMvcc.Gc
import NexirMvcc.Foundation.VersionHistory

/- What the in-memory backend answers and what its updates do, key by key. The
   versions of one key are a history over timestamps (`history`); the range
   queries of the source over the one map of `(key, ts)` entries find exactly the
   visible version, the latest version and the older timestamps of that history,
   and each update changes the histories and intents of its own keys only. -/
namespace NexirMvcc
open VersionHistory

namespace InMemoryBackend

/-- The committed versions of one key. -/
def history (b : InMemoryBackend) (key : Key) : Timestamp → Option (Option Value) :=
  fun ts => b.committed[toLex (key, ts)]?

/-! Range queries over `(key, ts)` stay inside one key. -/

theorem toLex_le_toLex {k k' : Key} {t t' : Timestamp} :
    (toLex (k, t) ≤ toLex (k', t')) ↔ k < k' ∨ k = k' ∧ t ≤ t' :=
  Prod.Lex.toLex_le_toLex

theorem toLex_lt_toLex {k k' : Key} {t t' : Timestamp} :
    (toLex (k, t) < toLex (k', t')) ↔ k < k' ∨ k = k' ∧ t < t' :=
  Prod.Lex.toLex_lt_toLex

/-- An entry between the first one of `k` and another one of `k` is an entry of `k`. -/
theorem in_key_iff {k k' : Key} {t : Timestamp} {P : Prop} :
    ((k < k' ∨ k = k' ∧ 0 ≤ t) ∧ (k' < k ∨ k' = k ∧ P)) ↔ k' = k ∧ P := by
  constructor
  · rintro ⟨hlo | ⟨rfl, -⟩, hhi | ⟨he, hP⟩⟩
    · exact absurd (hlo.trans hhi) (lt_irrefl _)
    · exact absurd he hlo.ne'
    · exact absurd hhi (lt_irrefl _)
    · exact ⟨rfl, hP⟩
  · rintro ⟨rfl, hP⟩
    exact ⟨.inr ⟨rfl, Fin.zero_le t⟩, .inr ⟨rfl, hP⟩⟩

theorem range_incl {k k' : Key} {t r : Timestamp} :
    (lowest k ≤ toLex (k', t) ∧ toLex (k', t) ≤ toLex (k, r)) ↔ k' = k ∧ t ≤ r := by
  unfold lowest
  rw [toLex_le_toLex, toLex_le_toLex]
  exact in_key_iff

theorem range_excl {k k' : Key} {t r : Timestamp} :
    (lowest k ≤ toLex (k', t) ∧ toLex (k', t) < toLex (k, r)) ↔ k' = k ∧ t < r := by
  unfold lowest
  rw [toLex_le_toLex, toLex_lt_toLex]
  exact in_key_iff

theorem exists_toLex (a : Key ×ₗ Timestamp) : ∃ k t, a = toLex (k, t) :=
  ⟨(ofLex a).1, (ofLex a).2, rfl⟩

@[simp] theorem versionOf_same {key : Key} {t : Timestamp} {x : Option Value} :
    versionOf key (some (toLex (key, t), x)) = some ⟨key, t, x⟩ := by
  simp [versionOf]

theorem le_maxTs (t : Timestamp) : t ≤ maxTs := Fin.le_last t

variable {b : InMemoryBackend} {key : Key}

/-- The version found at the end of a range of `key` is the visible one. -/
theorem getVisibleCommitted_eq_some {r : Timestamp} {v : CommittedVersion} :
    b.getVisibleCommitted key r = some v ↔
      v.key = key ∧ Visible (b.history key) r v.commitTs ∧
        b.history key v.commitTs = some v.value := by
  have hlast := @OrderedMap.between_getLast?_eq_some _ _ _ b.committed
    (fun a => lowest key ≤ a ∧ a ≤ toLex (key, r))
  simp only [decide_eq_true_eq] at hlast
  unfold getVisibleCommitted OrderedMap.rangeIncl
  constructor
  · intro h
    cases hl : (b.committed.between fun a => lowest key ≤ a ∧ a ≤ toLex (key, r)).getLast? with
    | none => rw [hl] at h; cases h
    | some e =>
      obtain ⟨a, x⟩ := e
      obtain ⟨k', t, rfl⟩ := exists_toLex a
      obtain ⟨⟨hx, hin⟩, hmax⟩ := hlast.mp hl
      obtain ⟨rfl, hr⟩ := range_incl.mp hin
      rw [hl, versionOf_same] at h
      cases h
      refine ⟨rfl, ⟨⟨mem_dom.mpr ⟨x, hx⟩, hr⟩, ?_⟩, hx⟩
      rintro u ⟨hu, hur⟩
      obtain ⟨y, hy⟩ := mem_dom.mp hu
      have hle := hmax (toLex (k', u)) y hy (range_incl.mpr ⟨rfl, hur⟩)
      have hle' := toLex_le_toLex.mp hle
      simpa using hle'
  · rintro ⟨rfl, ⟨⟨-, hr⟩, hmax⟩, hv⟩
    have hl : (b.committed.between fun a => lowest v.key ≤ a ∧ a ≤ toLex (v.key, r)).getLast? =
        some (toLex (v.key, v.commitTs), v.value) := by
      refine hlast.mpr ⟨⟨hv, range_incl.mpr ⟨rfl, hr⟩⟩, ?_⟩
      intro a y hy hin
      obtain ⟨k', t, rfl⟩ := exists_toLex a
      obtain ⟨rfl, htr⟩ := range_incl.mp hin
      exact toLex_le_toLex.mpr (.inr ⟨rfl, hmax ⟨mem_dom.mpr ⟨y, hy⟩, htr⟩⟩)
    rw [hl, versionOf_same]

theorem getVisibleCommitted_eq_none {r : Timestamp} :
    b.getVisibleCommitted key r = none ↔ ∀ t ≤ r, b.history key t = none := by
  constructor
  · intro h t htr
    by_contra ht
    obtain ⟨u, hu⟩ := exists_visible (mem_dom.mpr (Option.ne_none_iff_exists'.mp ht)) htr
    obtain ⟨x, hx⟩ := mem_dom.mp hu.1.1
    have hsome : b.getVisibleCommitted key r = some ⟨key, u, x⟩ :=
      getVisibleCommitted_eq_some.mpr ⟨rfl, hu, hx⟩
    rw [h] at hsome
    cases hsome
  · intro h
    refine Option.eq_none_iff_forall_not_mem.mpr fun v hv => ?_
    obtain ⟨-, hvis, hval⟩ := getVisibleCommitted_eq_some.mp hv
    rw [h v.commitTs hvis.1.2] at hval
    cases hval

theorem getLatestCommitted_eq : b.getLatestCommitted key = b.getVisibleCommitted key maxTs := rfl

theorem getLatestCommitTs_eq :
    b.getLatestCommitTs key = (b.getVisibleCommitted key maxTs).map (·.commitTs) := rfl

theorem getLatestCommitTs_eq_some {t : Timestamp} :
    b.getLatestCommitTs key = some t ↔ Latest (b.history key) t := by
  rw [getLatestCommitTs_eq, Option.map_eq_some_iff]
  constructor
  · rintro ⟨v, hv, rfl⟩
    exact (getVisibleCommitted_eq_some.mp hv).2.1.latest fun u _ => le_maxTs u
  · intro h
    obtain ⟨x, hx⟩ := mem_dom.mp h.1
    exact ⟨⟨key, t, x⟩, getVisibleCommitted_eq_some.mpr ⟨rfl, h.visible (le_maxTs t), hx⟩, rfl⟩

theorem getLatestCommitTs_eq_none :
    b.getLatestCommitTs key = none ↔ ∀ t, b.history key t = none := by
  rw [getLatestCommitTs_eq, Option.map_eq_none_iff, getVisibleCommitted_eq_none]
  exact ⟨fun h t => h t (le_maxTs t), fun h t _ => h t⟩

/-- No latest timestamp above `s`, said of the history. -/
theorem latest_le_iff {s : Timestamp} :
    (∀ t, b.getLatestCommitTs key = some t → t ≤ s) ↔ ∀ t ∈ dom (b.history key), t ≤ s := by
  constructor
  · intro h t ht
    cases hl : b.getLatestCommitTs key with
    | none => exact absurd (getLatestCommitTs_eq_none.mp hl t) (fun hn => not_mem_dom.mpr hn ht)
    | some u => exact ((getLatestCommitTs_eq_some.mp hl).2 ht).trans (h u hl)
  · intro h t hl
    exact h t (getLatestCommitTs_eq_some.mp hl).1

theorem latest_lt_iff {s : Timestamp} :
    (∀ t, b.getLatestCommitTs key = some t → t < s) ↔ ∀ t ∈ dom (b.history key), t < s := by
  constructor
  · intro h t ht
    cases hl : b.getLatestCommitTs key with
    | none => exact absurd (getLatestCommitTs_eq_none.mp hl t) (fun hn => not_mem_dom.mpr hn ht)
    | some u => exact ((getLatestCommitTs_eq_some.mp hl).2 ht).trans_lt (h u hl)
  · intro h t hl
    exact h t (getLatestCommitTs_eq_some.mp hl).1

end InMemoryBackend

end NexirMvcc
