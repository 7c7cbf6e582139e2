import Mathlib.Data.List.Chain
import Wbfuwunel.Foundation.Saturating

/-! What a window of events may hold, and how it is cut into packs: `core/wbf/events.rs`. -/

set_option autoImplicit false

namespace Wbfuwunel.Wire
open Foundation List

def eventLenPrefix : Nat := 4

/-- Bytes one event costs inside the data section: its prefix and itself. -/
def framedLen (eventLen : Nat) : Nat := saturatingAddLen eventLenPrefix eventLen

/-! ## Packs -/

def packRangesLoop (countMax dataMax : Nat) : (lens : List Nat) → (position start count dataLen : Nat) → List (Nat × Nat)
  | [], _, start, count, _ => if 0 < count then [(start, start + count)] else []
  | len :: lens, position, start, count, dataLen =>
    let framed := framedLen len
    let isCountFull := decide (countMax ≤ count)
    let isOverBudget := decide (0 < count) && decide (dataMax < saturatingAddLen dataLen framed)
    if isCountFull || isOverBudget then
      (start, position) :: packRangesLoop countMax dataMax lens (position + 1) position 1 (saturatingAddLen 0 framed)
    else packRangesLoop countMax dataMax lens (position + 1) start (count + 1) (saturatingAddLen dataLen framed)

/-- Where the packs of a run of events begin and end. A `countMax` of zero is read as one. -/
def listPackRanges (lens : List Nat) (countMax dataMax : Nat) : List (Nat × Nat) :=
  packRangesLoop (max countMax 1) dataMax lens 0 0 0 0

def packAt {α : Type} (events : List α) (range : Nat × Nat) : List α := (events.drop range.1).take (range.2 - range.1)

theorem flatMap_packAt_packRangesLoop {α : Type} (es : List α) (countMax dataMax : Nat) {lens : List Nat}
    {pos start n : Nat} (here : pos = start + n) (wait : es.length = pos + lens.length)
    (dataLen : Nat) :
    (packRangesLoop countMax dataMax lens pos start n dataLen).flatMap (packAt es) = es.drop start := by
  induction lens generalizing pos start n dataLen with
  | nil =>
    have whole : (es.drop start).length = n := by
      rw [length_drop, wait, length_nil]
      omega
    simp only [packRangesLoop]
    split
    · simp [packAt, take_of_length_le whole.le]
    · exact (eq_nil_of_length_eq_zero (by omega)).symm
  | cons len lens ih =>
    rw [length_cons] at wait
    simp only [packRangesLoop]
    split
    · rw [flatMap_cons, ih rfl (by omega), packAt, here, Nat.add_sub_cancel_left, ← drop_drop, take_append_drop]
    · exact ih (by omega) (by omega) _

theorem flatMap_packAt_listPackRanges {α : Type} (es : List α) (len : α → Nat) (countMax dataMax : Nat) :
    (listPackRanges (es.map len) countMax dataMax).flatMap (packAt es) = es :=
  @flatMap_packAt_packRangesLoop α es (max countMax 1) dataMax (es.map len) 0 0 0 rfl (by simp) 0

def framedTotal (lens : List Nat) : Nat := lens.foldl (fun total len => saturatingAddLen total (framedLen len)) 0

theorem framedTotal_concat (lens : List Nat) (len : Nat) :
    framedTotal (lens ++ [len]) = saturatingAddLen (framedTotal lens) (framedLen len) := by
  rw [framedTotal, foldl_append]
  rfl

theorem framedTotal_packAt_succ {lens rest : List Nat} {pos start len : Nat} (begun : start ≤ pos)
    (next : lens.drop pos = len :: rest) :
    framedTotal (packAt lens (start, pos + 1)) =
      saturatingAddLen (framedTotal (packAt lens (start, pos))) (framedLen len) := by
  have here : (lens.drop start)[pos - start]? = some len := by
    rw [getElem?_drop, Nat.add_sub_cancel' begun, ← head?_drop, next, head?_cons]
  simp only [packAt, Nat.succ_sub begun, take_add_one, here, Option.toList_some, framedTotal_concat]

section Cuts

variable (countMax dataMax : Nat) (lens : List Nat)

structure Capped (range : Nat × Nat) : Prop where
  nonempty : range.1 < range.2
  inside : range.2 ≤ lens.length
  few : range.2 - range.1 ≤ countMax
  small : framedTotal (packAt lens range) ≤ dataMax ∨ range.2 = range.1 + 1

/-- The next pack begins where this one ends, with an event that this one has no room for. -/
def Forced (range next : Nat × Nat) : Prop :=
  next.1 = range.2 ∧ (range.2 - range.1 = countMax ∨ dataMax < framedTotal (packAt lens (range.1, range.2 + 1)))

variable {countMax dataMax lens}

theorem capped_of_full {pos start n dataLen : Nat} (here : pos = start + n)
    (inside : pos ≤ lens.length) (total : framedTotal (packAt lens (start, pos)) = dataLen)
    (few : n ≤ countMax) (small : dataLen ≤ dataMax ∨ n ≤ 1) (some : 0 < n) :
    Capped countMax dataMax lens (start, pos) where
  nonempty := by simp only; omega
  inside := inside
  few := by simp only; omega
  small := small.imp (total ▸ ·) fun one => by simp only; omega

theorem cuts_packRangesLoop {rest : List Nat} {pos start n dataLen : Nat} (here : pos = start + n)
    (mem : pos ≤ lens.length) (wait : lens.drop pos = rest)
    (total : framedTotal (packAt lens (start, pos)) = dataLen) (positive : 0 < countMax)
    (few : n ≤ countMax) (lt : dataLen ≤ dataMax ∨ n ≤ 1) :
    let ranges := packRangesLoop countMax dataMax rest pos start n dataLen
    (∀ range ∈ ranges, Capped countMax dataMax lens range) ∧ ranges.IsChain (Forced countMax dataMax lens) ∧
      ∀ range ∈ ranges.head?, range.1 = start := by
  induction rest generalizing pos start n dataLen with
  | nil =>
    simp only [packRangesLoop]
    split
    case isTrue some => simp [← here, capped_of_full here mem total few lt some]
    case isFalse => simp
  | cons len rest ih =>
    have next : lens.drop (pos + 1) = rest := by rw [← drop_drop, wait, drop_one, tail_cons]
    have within : pos + 1 ≤ lens.length := by
      have more := congrArg List.length wait
      rw [length_drop, length_cons] at more
      omega
    have grown := framedTotal_packAt_succ (Nat.le.intro here.symm) wait
    rw [total] at grown
    simp only [packRangesLoop]
    split
    case isTrue full =>
      -- The pack ends here, and the event begins the next one.
      simp only [Bool.or_eq_true, Bool.and_eq_true, decide_eq_true_eq] at full
      have alone := framedTotal_packAt_succ le_rfl wait
      rw [show packAt lens (pos, pos) = [] by simp [packAt]] at alone
      obtain ⟨capped, chain, head⟩ := ih rfl within next alone positive (.inr le_rfl)
      refine ⟨?_, isChain_cons.mpr ⟨fun range a => ⟨head range a, ?_⟩, chain⟩, by simp⟩
      · rintro range (_ | ⟨_, later⟩)
        · exact capped_of_full here mem total few lt (by omega)
        · exact capped range later
      · show pos - start = countMax ∨ dataMax < framedTotal (packAt lens (start, pos + 1))
        omega
    case isFalse r =>
      simp only [Bool.or_eq_true, Bool.and_eq_true, decide_eq_true_eq, not_or, not_and, not_lt] at r
      exact ih (by omega) within next grown (by omega) (by omega)

theorem cuts_listPackRanges (lens : List Nat) (countMax dataMax : Nat) :
    (∀ range ∈ listPackRanges lens countMax dataMax, Capped (max countMax 1) dataMax lens range) ∧
      (listPackRanges lens countMax dataMax).IsChain (Forced (max countMax 1) dataMax lens) := by
  obtain ⟨capped, chain, -⟩ := @cuts_packRangesLoop (max countMax 1) dataMax lens lens 0 0 0 0 rfl (Nat.zero_le _) rfl rfl
    (by omega) (Nat.zero_le _) (.inr (Nat.zero_le _))
  exact ⟨capped, chain⟩

/-- Packs hold all events in order, keep to both caps, and end only where the next event has no room. -/
theorem pack_ranges_greedy (lens : List Nat) (countMax dataMax : Nat) :
    (listPackRanges lens countMax dataMax).flatMap (packAt (List.range lens.length)) = List.range lens.length ∧
      (∀ range ∈ listPackRanges lens countMax dataMax, Capped (max countMax 1) dataMax lens range) ∧
      (listPackRanges lens countMax dataMax).IsChain (Forced (max countMax 1) dataMax lens) :=
  ⟨@flatMap_packAt_packRangesLoop Nat _ _ dataMax lens 0 0 0 rfl (by simp) 0, cuts_listPackRanges lens countMax dataMax⟩

end Cuts

/-! ## Windows -/

structure WindowBudget where
  countMax : Nat
  bytesMax : Nat
  count : Nat
  bytes : Nat
  isClosed : Bool
  deriving DecidableEq, Repr

namespace WindowBudget

def new (countMax bytesMax : Nat) : WindowBudget := ⟨countMax, bytesMax, 0, 0, false⟩

variable (budget : WindowBudget)

def isCountFull : Bool := decide (budget.countMax ≤ budget.count)

/-- Whether an event joins, and the budget after it was asked. -/
def tryAdmit (eventLen : Nat) : Bool × WindowBudget :=
  let framed := framedLen eventLen
  let isOverBytes := decide (0 < budget.count) && decide (budget.bytesMax < saturatingAddLen budget.bytes framed)
  if budget.isClosed || isOverBytes || budget.isCountFull then (false, { budget with isClosed := true })
  else
    (true, { budget with bytes := saturatingAddLen budget.bytes framed, count := saturatingAddLen budget.count 1 })

/-- A window that was asked for nothing is not cut. -/
def isCutShort : Bool :=
  if budget.countMax = 0 then false else budget.isClosed || budget.isCountFull

variable {budget next : WindowBudget} {eventLen : Nat}

theorem of_refused (isOpen : budget.isClosed = false) (eq : budget.isCountFull = false)
    (refused : budget.tryAdmit eventLen = (false, next)) :
    0 < budget.count ∧ next.isClosed ∧ next.countMax = budget.countMax := by
  simp only [tryAdmit] at refused
  split at refused
  case isTrue full =>
    cases refused
    simp only [isOpen, eq, Bool.false_or, Bool.or_false, Bool.and_eq_true, decide_eq_true_eq] at full
    exact ⟨full.1, rfl, rfl⟩
  case isFalse => cases refused

theorem of_admitted (admitted : budget.tryAdmit eventLen = (true, next)) :
    next.isClosed = false ∧ 0 < next.count ∧ next.countMax = budget.countMax := by
  simp only [tryAdmit] at admitted
  split at admitted
  case isTrue => cases admitted
  case isFalse kept =>
    cases admitted
    simp only [Bool.or_eq_true, not_or, Bool.not_eq_true] at kept
    refine ⟨kept.1.1, ?_, rfl⟩
    simp only [saturatingAddLen]
    omega

theorem isCutShort_eq (asked : 0 < budget.countMax) : budget.isCutShort = (budget.isClosed || budget.isCountFull) :=
  if_neg (Nat.ne_of_gt asked)

/-- Events offered one after the other: the answers, and the budget at the end. -/
def offer (budget : WindowBudget) : List Nat → List Bool × WindowBudget
  | [] => ([], budget)
  | len :: lens =>
    let tried := budget.tryAdmit len
    let rest := tried.2.offer lens
    (tried.1 :: rest.1, rest.2)

def Fits (countMax bytesMax : Nat) (lens : List Nat) (count : Nat) : Prop :=
  count ≤ countMax ∧ (count ≤ 1 ∨ framedTotal (lens.take count) ≤ bytesMax)

theorem framedTotal_le_append (lens more : List Nat) : framedTotal lens ≤ framedTotal (lens ++ more) := by
  have lt : framedTotal lens ≤ 2 ^ 64 - 1 := by
    cases lens using List.reverseRecOn with
    | nil => exact Nat.zero_le _
    | append_singleton lens len => exact framedTotal_concat lens len ▸ Nat.min_le_right ..
  induction more using List.reverseRecOn with
  | nil => rw [append_nil]
  | append_singleton more len ih =>
    rw [← append_assoc, framedTotal_concat, saturatingAddLen]
    omega

theorem Fits.of_le {countMax bytesMax few many : Nat} {lens : List Nat} (fits : Fits countMax bytesMax lens many)
    (fewer : few ≤ many) : Fits countMax bytesMax lens few := by
  refine ⟨fewer.trans fits.1, fits.2.imp fewer.trans fun lt => ?_⟩
  have pre := framedTotal_le_append ((lens.take many).take few) ((lens.take many).drop few)
  rw [take_append_drop, take_take, Nat.min_eq_left fewer] at pre
  exact pre.trans lt

theorem offer_of_closed (closed : budget.isClosed) (lens : List Nat) :
    (budget.offer lens).1 = List.replicate lens.length false ∧ (budget.offer lens).2 = budget := by
  have refused (len : Nat) : budget.tryAdmit len = (false, budget) := by
    simp only [tryAdmit, closed, Bool.true_or, if_true]
    rw [← closed]
  induction lens with
  | nil => exact ⟨rfl, rfl⟩
  | cons len lens ih =>
    simp only [offer, refused, length_cons, replicate_succ, ih]
    exact ⟨trivial, trivial⟩

/-- A budget that has admitted these events. -/
abbrev holding (countMax bytesMax : Nat) (held : List Nat) (isClosed : Bool) : WindowBudget :=
  ⟨countMax, bytesMax, held.length, framedTotal held, isClosed⟩

variable {countMax bytesMax : Nat}

theorem tryAdmit_holding (le : countMax < 2 ^ 64) (held lens : List Nat) (len : Nat) :
    (Fits countMax bytesMax (held ++ len :: lens) (held.length + 1) →
      (holding countMax bytesMax held false).tryAdmit len = (true, holding countMax bytesMax (held ++ [len]) false)) ∧
    (¬Fits countMax bytesMax (held ++ len :: lens) (held.length + 1) →
      (holding countMax bytesMax held false).tryAdmit len = (false, holding countMax bytesMax held true)) := by
  have taken : (held ++ len :: lens).take (held.length + 1) = held ++ [len] := by
    rw [take_length_add_append, take_succ_cons, take_zero]
  rw [Fits, taken, framedTotal_concat]
  constructor
  · rintro ⟨few, lt⟩
    have counts : saturatingAddLen held.length 1 = held.length + 1 := by rw [saturatingAddLen]; omega
    refine (if_neg ?_).trans ?_
    · simp only [Bool.false_or, isCountFull, Bool.or_eq_true, Bool.and_eq_true, decide_eq_true_eq]
      omega
    · simp [counts, framedTotal_concat]
  · intro full
    refine if_pos ?_
    simp only [isCountFull, Bool.or_eq_true, Bool.and_eq_true, decide_eq_true_eq]
    omega

theorem offer_holding (le : countMax < 2 ^ 64) {held lens : List Nat}
    (fits : Fits countMax bytesMax (held ++ lens) held.length) :
    ∃ n ≤ lens.length, (holding countMax bytesMax held false).offer lens =
        (List.replicate n true ++ List.replicate (lens.length - n) false,
          holding countMax bytesMax (held ++ lens.take n) (decide (n < lens.length))) ∧
      Fits countMax bytesMax (held ++ lens) (held.length + n) ∧
      (n < lens.length → ¬Fits countMax bytesMax (held ++ lens) (held.length + n + 1)) := by
  induction lens generalizing held with
  | nil => exact ⟨0, le_rfl, by simp [offer], by simpa using fits, by simp⟩
  | cons len lens ih =>
    obtain ⟨admitted, refused⟩ := @tryAdmit_holding countMax bytesMax le held lens len
    by_cases next : Fits countMax bytesMax (held ++ len :: lens) (held.length + 1)
    · have whole : held ++ len :: lens = held ++ [len] ++ lens := by simp
      have length : (held ++ [len]).length = held.length + 1 := by simp
      rw [whole] at next ⊢
      obtain ⟨n, within, offered, r, full⟩ := ih (length ▸ next)
      rw [length, Nat.add_assoc, Nat.add_comm 1] at r
      rw [length, Nat.add_right_comm held.length] at full
      refine ⟨n + 1, Nat.succ_le_succ within, ?_, r, fun more => full (Nat.lt_of_succ_lt_succ more)⟩
      simp [offer, admitted (whole ▸ next), offered, replicate_succ]
    · obtain ⟨answers, same⟩ := @offer_of_closed (holding countMax bytesMax held true) rfl lens
      refine ⟨0, Nat.zero_le _, ?_, fits, fun _ => next⟩
      simp [offer, refused next, answers, same, replicate_succ]

/-- The admitted events are the longest prefix within both caps, one event apart; a window is cut short where an event was
refused or the count is full. -/
theorem window_budget_longest_prefix (countMax : UInt64) (bytesMax : Nat) (lens : List Nat) :
    ∃ count ≤ lens.length, ((new countMax.toNat bytesMax).offer lens).1 =
        List.replicate count true ++ List.replicate (lens.length - count) false ∧
      Fits countMax.toNat bytesMax lens count ∧ (∀ other ≤ lens.length, Fits countMax.toNat bytesMax lens other → other ≤ count) ∧
      (0 < countMax.toNat → (((new countMax.toNat bytesMax).offer lens).2.isCutShort ↔ count < lens.length ∨ count = countMax.toNat) ∧
        (((new countMax.toNat bytesMax).offer lens).2.isCutShort → 0 < count)) := by
  obtain ⟨count, within, offered, fits, full⟩ := @offer_holding countMax.toNat bytesMax countMax.toNat_lt [] lens
    ⟨Nat.zero_le _, .inl (Nat.zero_le _)⟩
  simp only [nil_append, length_nil, Nat.zero_add] at offered fits full
  have opened : new countMax.toNat bytesMax = holding countMax.toNat bytesMax [] false := rfl
  rw [opened, offered]
  refine ⟨count, within, rfl, fits, fun other mem longer => ?_, fun asked => ?_⟩
  · by_contra more
    exact full (by omega) (longer.of_le (by omega))
  · have cut : (holding countMax.toNat bytesMax (lens.take count) (decide (count < lens.length))).isCutShort = true ↔
        count < lens.length ∨ count = countMax.toNat := by
      have few := fits.1
      rw [isCutShort_eq asked]
      simp only [isCountFull, length_take, Nat.min_eq_left within, Bool.or_eq_true, decide_eq_true_eq]
      omega
    refine ⟨cut, fun k => ?_⟩
    rcases cut.mp k with refused | all
    · by_contra none
      exact full refused ⟨by omega, .inl (by omega)⟩
    · omega

end WindowBudget
end Wbfuwunel.Wire
