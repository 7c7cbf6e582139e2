import Wbfuwunel.Database.Codec
import Wbfuwunel.Foundation.Saturating
import Wbfuwunel.Foundation.Store

/-! Tables whose keys open with an owner and go on with a count: the rows of one owner lie in the order of their counts,
and a window of counts is read from its first key on.
-/

set_option autoImplicit false

namespace Wbfuwunel.Database

open Foundation List

section Opened

variable {K V : Type} [LinearOrder K] (bytes : K → Bytes) (count : K → UInt64)

/-- Seek behind `since` under an opening, then read while the rows are the owner's and not above the upper bound. -/
def rowsWithin (table : Store K V) (start : Bytes) (mine : K → Bool) (since : UInt64) (upper : Option UInt64) :
    List (K × V) :=
  (table.rowsFromRaw bytes (start ++ toBeBytes64 (saturatingAdd64 since 1))).takeWhile fun row =>
    mine row.1 && upper.all fun upper => count row.1 ≤ upper

variable {bytes count} {opening rest : K → Bytes}
  (shape : ∀ k, bytes k = opening k ++ (toBeBytes64 (count k) ++ rest k))
include shape

omit [LinearOrder K] in
theorem count_le_of_bytes_lt {a b : K} (eq : opening a = opening b)
    (smaller : bytes a < bytes b) : count a ≤ count b := by
  rw [shape, shape, eq, append_lt_append_iff _ _ rfl, append_lt_append_iff _ _ (by simp), toBeBytes64_lt_iff] at smaller
  rcases smaller with lt | ⟨-, lt | ⟨equal, -⟩⟩
  · exact absurd lt (lt_irrefl _)
  · exact lt.le
  · exact le_of_eq (by simpa using equal)

omit [LinearOrder K] in
theorem bytes_lt_of_count_lt {a b : K} (eq : opening a = opening b) (smaller : count a < count b) :
    bytes a < bytes b := by
  rw [shape, shape, eq, append_lt_append_iff _ _ rfl, append_lt_append_iff _ _ (by simp), toBeBytes64_lt_iff]
  exact .inr ⟨rfl, .inl smaller⟩

omit [LinearOrder K] in
theorem bytes_lt_seek_iff (k : K) (from' : UInt64) : bytes k < opening k ++ toBeBytes64 from' ↔ count k < from' := by
  have seek : opening k ++ toBeBytes64 from' = opening k ++ (toBeBytes64 from' ++ []) := by simp
  rw [seek, shape, append_lt_append_iff _ _ rfl, append_lt_append_iff _ _ (by simp), toBeBytes64_lt_iff]
  simp

variable (monotone : ∀ a b, a < b ↔ bytes a < bytes b)
include monotone

theorem mem_rowsWithin {table : Store K V} {start : Bytes} {mine : K → Bool} {since : UInt64} {upper : Option UInt64}
    {row : K × V} (pre : ∀ k, start <+: bytes k ↔ mine k) (opens : ∀ k, mine k → opening k = start) :
    row ∈ rowsWithin bytes count table start mine since upper ↔ row ∈ table.rows ∧ mine row.1 ∧
      saturatingAdd64 since 1 ≤ count row.1 ∧ ∀ le ∈ upper, count row.1 ≤ le := by
  have within (k : K) : (upper.all fun upper => count k ≤ upper) ↔ ∀ le ∈ upper, count k ≤ le := by
    cases upper <;> simp
  rw [rowsWithin, takeWhile_eq_filter, table.rowsFromRaw_eq_filter monotone, filter_filter, mem_filter]
  · simp only [Bool.and_eq_true, within, Bool.not_eq_true', decide_eq_false_iff_not]
    constructor
    · rintro ⟨mem, ⟨own, lt⟩, gt⟩
      rw [← opens row.1 own, bytes_lt_seek_iff shape, not_lt] at gt
      exact ⟨mem, own, gt, lt⟩
    · rintro ⟨mem, own, gt, lt⟩
      refine ⟨mem, ⟨own, lt⟩, ?_⟩
      rwa [← opens row.1 own, bytes_lt_seek_iff shape, not_lt]
  · rw [table.rowsFromRaw_eq_filter monotone]
    refine List.Pairwise.imp_of_mem ?_ (table.ordered.filter _)
    intro a b mem _ smaller sel
    simp only [Bool.and_eq_true, within] at sel ⊢
    have gt : ¬bytes a.1 < start ++ toBeBytes64 (saturatingAdd64 since 1) := by
      simpa using (mem_filter.mp mem).2
    rw [monotone] at smaller
    -- The first lies between the seek key and the second, both the owner's.
    have own : mine a.1 := by
      rw [← pre]
      refine begins_of_between (fun lt => ?_) smaller.not_gt ((pre _).mpr sel.1)
      exact not_lt_of_begins (prefix_append _ _) (lt_of_le_of_lt (not_lt.mp gt) lt)
    have least := count_le_of_bytes_lt shape ((opens _ own).trans (opens _ sel.1).symm) smaller
    exact ⟨own, fun le hit => least.trans (sel.2 le hit)⟩

end Opened

section Counted

variable {K V : Type} [LinearOrder K] (bytes : K → Bytes) (owner : K → String) (count : K → UInt64)

def rowsBetween (table : Store K V) (who : String) (since upper : UInt64) : List (K × V) :=
  (table.rowsFromRaw bytes (serializeKey [.str who, .u64 (saturatingAdd64 since 1)])).takeWhile fun row =>
    owner row.1 = who && count row.1 ≤ upper

variable {bytes owner count} {rest : K → Bytes}
  (shape : ∀ k, bytes k = utf8 (owner k) ++ SEP :: (toBeBytes64 (count k) ++ rest k))
  (monotone : ∀ a b, a < b ↔ bytes a < bytes b)
include shape

omit [LinearOrder K] in
theorem bytes_eq_append (k : K) : bytes k = (utf8 (owner k) ++ [SEP]) ++ (toBeBytes64 (count k) ++ rest k) := by
  rw [shape]
  simp

include monotone

theorem mem_rowsBetween {table : Store K V} {who : String} {since upper : UInt64} {row : K × V} :
    row ∈ rowsBetween bytes owner count table who since upper ↔
      row ∈ table.rows ∧ owner row.1 = who ∧ saturatingAdd64 since 1 ≤ count row.1 ∧ count row.1 ≤ upper := by
  have eq : rowsBetween bytes owner count table who since upper =
      rowsWithin bytes count table (utf8 who ++ [SEP]) (fun k => owner k = who) since (some upper) := by
    simp [rowsBetween, rowsWithin, Element.encode]
  have owned (k : K) : utf8 who ++ [SEP] <+: bytes k ↔ decide (owner k = who) := by
    rw [shape, str_begins_iff]
    simp [eq_comm]
  rw [eq, mem_rowsWithin (bytes_eq_append shape) monotone owned fun k own => by rw [of_decide_eq_true own]]
  simp

end Counted

end Wbfuwunel.Database
