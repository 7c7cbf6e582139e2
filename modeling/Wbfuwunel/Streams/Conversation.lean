import Mathlib.Algebra.Group.Nat.Defs
import Mathlib.Data.List.Nodup
import Wbfuwunel.Foundation.Runs

/-! One conversation as its packs see it: each is taken, tried, and announced by the `gap` of a later one if it was
dropped. Pushes overlap, so the beats of several packs interleave.

A turn is a pack's place among those taken. The `seq` of the wire is not one: it wraps around.
-/

set_option autoImplicit false

namespace Wbfuwunel.Streams
open Foundation List Function

inductive Beat where
  | take (push : Nat) (seq : UInt32) (gap : Bool)
  | queue (turn : Nat) (gap : Bool)
  | drop (push turn : Nat)
  | gone (turn : Nat)
  | mark (push : Nat)
  deriving DecidableEq

inductive Fate where
  | untaken
  | underWay (push : Nat)
  | queued
  | dropped (push : Nat)
  /-- Dropped, and marked when `count` packs had been taken. -/
  | marked (count : Nat)
  | gone
  deriving DecidableEq

/-- `gap` is the flag as it stands, `bit` the flag each pack took away with it. -/
structure Conversation where
  count : Nat
  gap : Bool
  bit : Nat → Bool
  fate : Nat → Fate

def Beat.QueuesAfter (turn : Nat) : Beat → Prop
  | .queue later _ => turn < later
  | _ => False

namespace Conversation

def opened : Conversation := ⟨0, false, fun _ => false, fun _ => .untaken⟩

variable (conversation : Conversation)

def settle (turn : Nat) (fate : Fate) : Conversation :=
  { conversation with fate := update conversation.fate turn fate }

def owes (push : Nat) : Bool :=
  (List.range conversation.count).any fun turn => conversation.fate turn = .dropped push

def pending (push : Nat) : List Nat :=
  (List.range conversation.count).filter fun turn => conversation.fate turn = .underWay push

def follow : Beat → Conversation
  | .take push _ gap =>
    ⟨conversation.count + 1, false, update conversation.bit conversation.count gap,
      update conversation.fate conversation.count (.underWay push)⟩
  | .queue turn _ => conversation.settle turn .queued
  | .drop push turn => conversation.settle turn (.dropped push)
  | .gone turn => conversation.settle turn .gone
  | .mark push =>
    { conversation with
      gap := conversation.gap || conversation.owes push
      fate := fun turn =>
        if conversation.fate turn = .dropped push then .marked conversation.count else conversation.fate turn }

variable (log : List Beat)

def after : Conversation := run follow opened log

def seqs : List UInt32 :=
  log.filterMap fun
    | .take _ seq _ => some seq
    | _ => none

def Outstanding (turn : Nat) : Prop :=
  Since follow (fun _ beat => ∃ push, beat = .drop push turn) (fun _ beat => ¬beat.QueuesAfter turn) opened log

def Announced : Prop :=
  ∀ before later gap after, log = before ++ .queue later gap :: after →
    ∀ turn < later, Outstanding before turn → gap = true

def Legal : Beat → Prop
  | .take _ _ gap => gap = conversation.gap
  | .queue turn gap => (∃ push, conversation.fate turn = .underWay push) ∧ conversation.bit turn = gap
  | .drop push turn => conversation.fate turn = .underWay push
  | .gone turn => ∃ push, conversation.fate turn = .underWay push
  | .mark _ => True

/-- `later` does not overtake `turn` when it is queued: that one is through, or its loss was marked before `later` was
taken, or it is under way with nothing to announce. -/
def Follows (later turn : Nat) : Prop :=
  match conversation.fate turn with
  | .queued => True
  | .marked count => count ≤ later
  | .underWay _ => conversation.bit turn = false
  | _ => False

instance decidableFollows (conversation : Conversation) (later turn : Nat) :
    Decidable (conversation.Follows later turn) := by
  unfold Follows
  split <;> infer_instance

def Orderly : Beat → Prop
  | .take .. => conversation.count < 2 ^ 32
  | .queue later _ => ∀ turn < later, conversation.Follows later turn
  | .drop _ turn => ∀ later < conversation.count, turn < later → conversation.fate later ≠ .queued
  | .gone _ => False
  | .mark _ => True

instance decidableOrderly (conversation : Conversation) : DecidablePred conversation.Orderly := fun beat => by
  cases beat <;> unfold Orderly <;> infer_instance

/-! ## One beat -/

variable {conversation : Conversation} {log : List Beat} {beat : Beat} {turn push : Nat}

@[simp] theorem after_nil : after [] = opened := rfl

theorem after_concat (log : List Beat) (beat : Beat) : after (log ++ [beat]) = (after log).follow beat := by
  simp [after, run_append]

theorem seqs_concat (log : List Beat) (beat : Beat) : seqs (log ++ [beat]) = seqs log ++ seqs [beat] :=
  filterMap_append ..

theorem not_outstanding_nil (turn : Nat) : ¬Outstanding [] turn := not_since_nil _

theorem outstanding_concat :
    Outstanding (log ++ [beat]) turn ↔ (∃ push, beat = .drop push turn) ∨ Outstanding log turn ∧ ¬beat.QueuesAfter turn :=
  since_concat

theorem announced_nil : Announced [] := by
  intro old later gap after empty
  simp at empty

theorem announced_concat : Announced (log ++ [beat]) ↔ Announced log ∧
      ∀ later gap, beat = .queue later gap → ∀ turn < later, Outstanding log turn → gap = true := by
  constructor
  · intro announced
    refine ⟨fun old later gap after split => ?_, ?_⟩
    · exact announced old later gap (after ++ [beat]) (by simp [split])
    · rintro later gap rfl
      exact announced log later gap [] rfl
  · rintro ⟨announced, last⟩ old later gap after split
    rcases eq_nil_or_concat after with rfl | ⟨after, beat', rfl⟩
    · obtain ⟨rfl, ⟨⟩⟩ := append_inj' split rfl
      exact last later gap rfl
    · rw [concat_eq_append, ← cons_append, ← append_assoc] at split
      obtain ⟨rfl, ⟨⟩⟩ := append_inj' split rfl
      exact announced old later gap after rfl

variable (fate : Fate)

@[simp] theorem settle_count : (conversation.settle turn fate).count = conversation.count := rfl

@[simp] theorem settle_gap : (conversation.settle turn fate).gap = conversation.gap := rfl

@[simp] theorem settle_bit : (conversation.settle turn fate).bit = conversation.bit := rfl

theorem follow_queue (gap : Bool) : conversation.follow (.queue turn gap) = conversation.settle turn .queued := rfl

theorem follow_drop : conversation.follow (.drop push turn) = conversation.settle turn (.dropped push) := rfl

theorem follow_gone : conversation.follow (.gone turn) = conversation.settle turn .gone := rfl

theorem fate_settle (o : Nat) : (conversation.settle turn fate).fate o = if o = turn then fate else conversation.fate o :=
  update_apply ..

theorem owes_iff : conversation.owes push ↔ ∃ turn < conversation.count, conversation.fate turn = .dropped push := by
  simp [owes]

theorem mem_pending : turn ∈ conversation.pending push ↔
    turn < conversation.count ∧ conversation.fate turn = .underWay push := by
  simp [pending]

theorem pending_congr {other : Conversation} (eq : other.count = conversation.count)
    (fate : ∀ turn, other.fate turn = .underWay push ↔ conversation.fate turn = .underWay push) :
    other.pending push = conversation.pending push := by
  unfold pending
  rw [eq]
  exact filter_congr fun turn _ => decide_eq_decide.mpr (fate turn)

theorem pending_take (seq : UInt32) (gap : Bool) (o : Nat) : (conversation.follow (.take push seq gap)).pending o =
      conversation.pending o ++ if o = push then [conversation.count] else [] := by
  unfold pending
  rw [show (conversation.follow (.take push seq gap)).count = conversation.count + 1 from rfl, range_succ, filter_append]
  congr 1
  · refine filter_congr fun turn ls => decide_eq_decide.mpr ?_
    simp [follow, Nat.ne_of_lt (mem_range.mp ls)]
  · by_cases eq : o = push
    · simp [eq, follow]
    · simp [eq, Ne.symm eq, follow]

theorem pending_settle {fate : Fate} {rest : List Nat} (wait : conversation.pending push = turn :: rest)
    (settled : ∀ push, fate ≠ .underWay push) : (conversation.settle turn fate).pending push = rest := by
  have nodup : (turn :: rest).Nodup := wait ▸ nodup_range.filter _
  have split : (conversation.settle turn fate).pending push = (conversation.pending push).filter (· ≠ turn) := by
    unfold pending
    rw [filter_filter]
    refine filter_congr fun o _ => ?_
    by_cases eq : o = turn <;> simp [fate_settle, eq, settled]
  rw [split, wait, filter_cons_of_neg (by simp), filter_eq_self]
  intro o ls
  have : o ≠ turn := fun eq => (nodup_cons.mp nodup).1 (eq ▸ ls)
  simpa using this

theorem pending_settle_other {fate : Fate} {o : Nat} (under : conversation.fate turn = .underWay push)
    (settled : ∀ push, fate ≠ .underWay push) (ne : o ≠ push) :
    (conversation.settle turn fate).pending o = conversation.pending o := by
  refine pending_congr (settle_count _) fun which => ?_
  by_cases eq : which = turn
  · simp [fate_settle, eq, settled, under, Ne.symm ne]
  · simp [fate_settle, eq]

theorem pending_mark (o : Nat) : (conversation.follow (.mark push)).pending o = conversation.pending o := by
  refine pending_congr rfl fun turn => ?_
  simp only [follow]
  split <;> simp_all

theorem Orderly.count_le (ok : conversation.Orderly beat) (few : conversation.count ≤ 2 ^ 32) :
    (conversation.follow beat).count ≤ 2 ^ 32 := by
  cases beat with
  | take push seq gap => exact ok
  | queue | drop | gone | mark => exact few

/-! ## The flag -/

structure Kept (conversation : Conversation) : Prop where
  untaken : ∀ turn, conversation.fate turn = .untaken ↔ conversation.count ≤ turn
  marked : ∀ turn count, conversation.fate turn = .marked count → turn < count ∧ count ≤ conversation.count
  flag : conversation.gap ↔ ∃ turn, conversation.fate turn = .marked conversation.count
  bits : ∀ turn < conversation.count, conversation.bit turn ↔ ∃ lost, conversation.fate lost = .marked turn

namespace Kept

theorem opened : opened.Kept := by
  constructor <;> simp [Conversation.opened]

variable (kept : conversation.Kept)
include kept

theorem lt_count (turn : Nat) (taken : conversation.fate turn ≠ .untaken) : turn < conversation.count :=
  Nat.lt_of_not_le fun beyond => taken ((kept.untaken turn).mpr beyond)

theorem take (push : Nat) (seq : UInt32) : (conversation.follow (.take push seq conversation.gap)).Kept where
  untaken turn := by
    have := kept.untaken turn
    simp only [follow, update_apply]
    split
    case isTrue here => simp [here]
    case isFalse o =>
      rw [this]
      omega
  marked turn n got := by
    simp only [follow, update_apply] at got ⊢
    split at got
    · cases got
    · have := kept.marked turn n got
      omega
  flag := by
    -- A mark set from now on would say that one more pack had been taken.
    simp only [follow, update_apply, Bool.false_eq_true, false_iff, not_exists]
    intro turn got
    split at got
    · cases got
    · have := kept.marked turn _ got
      omega
  bits turn taken := by
    have beyond : ∀ lost, conversation.fate lost = .marked turn → lost ≠ conversation.count := by
      rintro _ got rfl
      have := kept.marked _ _ got
      omega
    have eq : (∃ lost, (conversation.follow (.take push seq conversation.gap)).fate lost = .marked turn) ↔
        ∃ lost, conversation.fate lost = .marked turn := by
      refine exists_congr fun lost => ?_
      simp only [follow, update_apply]
      split
      case isTrue here =>
        subst here
        exact iff_of_false nofun fun got => beyond _ got rfl
      case isFalse => rfl
    rw [eq]
    simp only [follow, update_apply]
    split
    case isTrue here => rw [here, kept.flag]
    case isFalse o =>
      refine kept.bits turn ?_
      simp only [follow] at taken
      omega

theorem settle (under : conversation.fate turn = .underWay push) (fate : Fate) (settled : fate ≠ .untaken)
    (unmarked : ∀ n, fate ≠ .marked n) : (conversation.settle turn fate).Kept := by
  have eq : ∀ o n, (conversation.settle turn fate).fate o = .marked n ↔ conversation.fate o = .marked n := by
    intro o n
    rw [fate_settle]
    split
    case isTrue here => simp [here, under, unmarked]
    case isFalse => rfl
  refine ⟨fun o => ?_, fun o n got => kept.marked o n ((eq o n).mp got), ?_, ?_⟩
  · rw [fate_settle]
    split
    case isTrue here =>
      have := kept.lt_count turn (by simp [under])
      simp [here, settled, this]
    case isFalse => exact kept.untaken o
  · simpa [eq] using kept.flag
  · simpa [eq] using kept.bits

theorem mark (push : Nat) : (conversation.follow (.mark push)).Kept where
  untaken turn := by
    rw [show (conversation.follow (.mark push)).count = conversation.count from rfl, ← kept.untaken]
    simp only [follow]
    split <;> simp_all
  marked turn n got := by
    simp only [follow] at got ⊢
    split at got
    case isTrue lost =>
      have := kept.lt_count turn (by simp [lost])
      cases got
      omega
    case isFalse => exact kept.marked turn n got
  flag := by
    simp only [follow, Bool.or_eq_true, owes_iff, kept.flag]
    constructor
    · rintro (⟨turn, got⟩ | ⟨turn, -, got⟩) <;> exact ⟨turn, by simp [got]⟩
    · rintro ⟨turn, got⟩
      split at got
      case isTrue lost => exact .inr ⟨turn, kept.lt_count turn (by simp [lost]), lost⟩
      case isFalse => exact .inl ⟨turn, got⟩
  bits turn taken := by
    -- The marks set now are those of the packs taken up to here, and this one is among them.
    rw [show (conversation.follow (.mark push)).bit = conversation.bit from rfl, kept.bits turn taken]
    refine exists_congr fun lost => ?_
    simp only [follow] at taken ⊢
    split
    case isTrue dropped =>
      refine iff_of_false (by simp [dropped]) fun got => ?_
      cases got
      omega
    case isFalse => rfl

theorem follow (legal : conversation.Legal beat) : (conversation.follow beat).Kept := by
  cases beat with
  | take push seq gap =>
    cases legal
    exact kept.take push seq
  | queue turn gap =>
    obtain ⟨⟨push, under⟩, -⟩ := legal
    exact kept.settle under _ nofun nofun
  | drop push turn => exact kept.settle legal _ nofun nofun
  | gone turn =>
    obtain ⟨push, under⟩ := legal
    exact kept.settle under _ nofun nofun
  | mark push => exact kept.mark push

end Kept

/-! ## Orderly conversations -/

variable (conversation)

def Lost (turn : Nat) : Prop :=
  (∃ push, conversation.fate turn = .dropped push) ∨ ∃ count, conversation.fate turn = .marked count

def Settled : Prop :=
  ∀ turn push, conversation.fate turn ≠ .underWay push ∧ conversation.fate turn ≠ .dropped push

def Passed (later turn : Nat) : Prop :=
  match conversation.fate turn with
  | .queued | .underWay _ => True
  | .marked count => count ≤ later
  | _ => False

variable {conversation}

theorem Follows.passed {later : Nat} (follows : conversation.Follows later turn) : conversation.Passed later turn := by
  unfold Follows at follows
  unfold Passed
  split <;> simp_all

structure Sound (log : List Beat) : Prop where
  kept : (after log).Kept
  alive : ∀ turn, (after log).fate turn ≠ .gone
  passed : ∀ later, (after log).fate later = .queued → ∀ turn < later, (after log).Passed later turn
  outstanding : ∀ turn, Outstanding log turn ↔
    (after log).Lost turn ∧ ∀ later, turn < later → (after log).fate later ≠ .queued
  announced : Announced log

namespace Sound

theorem nil : Sound [] where
  kept := .opened
  alive := nofun
  passed := nofun
  outstanding turn := by simp [not_outstanding_nil, Lost, Conversation.opened]
  announced := announced_nil

variable (h : Sound log)
include h

/-- An orderly pack that gets through carries the news of every loss that is outstanding before it. -/
theorem bit_eq_true {later : Nat} (taken : later < (after log).count)
    (ok : ∀ turn < later, (after log).Follows later turn) (old : turn < later)
    (outstanding : Outstanding log turn) : (after log).bit later := by
  -- The mark of the loss was carried off by a pack of its own; unless that is this one, it was lost as well.
  induction gap : later - turn using Nat.strongRecOn generalizing turn with
  | ind distance ih =>
    obtain ⟨lost, unpassed⟩ := (h.outstanding turn).mp outstanding
    obtain ⟨n, got⟩ : ∃ n, (after log).fate turn = .marked n := by
      rcases lost with ⟨push, dropped⟩ | marked
      · have := ok turn old
        simp [Follows, dropped] at this
      · exact marked
    have follows := ok turn old
    simp only [Follows, got] at follows
    have after_turn := (h.kept.marked turn n got).1
    rcases Nat.lt_or_eq_of_le follows with earlier | rfl
    · have carries := (h.kept.bits n (by omega)).mpr ⟨turn, got⟩
      have carrier := ok n earlier
      simp only [Follows, carries] at carrier
      split at carrier
      case h_1 queued => exact absurd queued (unpassed n after_turn)
      case h_2 again relost =>
        refine ih (later - n) (by omega) earlier ((h.outstanding n).mpr ⟨.inr ⟨again, relost⟩, ?_⟩) rfl
        exact fun next beyond => unpassed next (by omega)
      case h_3 => simp at carrier
      case h_4 => exact carrier.elim
    · exact (h.kept.bits _ taken).mpr ⟨turn, got⟩

theorem of_not_queue (legal : (after log).Legal beat) (unannounced : ∀ later gap, beat ≠ .queue later gap)
    (alive : ∀ turn, (after (log ++ [beat])).fate turn ≠ .gone)
    (queued : ∀ later, (after (log ++ [beat])).fate later = .queued ↔ (after log).fate later = .queued)
    (passed : ∀ later, (after log).fate later = .queued → ∀ turn < later, (after log).Passed later turn →
      (after (log ++ [beat])).Passed later turn)
    (lost : ∀ turn, (after (log ++ [beat])).Lost turn ↔ (∃ push, beat = .drop push turn) ∨ (after log).Lost turn)
    (unpassed : ∀ push turn, beat = .drop push turn → ∀ later, turn < later → (after log).fate later ≠ .queued) :
    Sound (log ++ [beat]) where
  kept := by
    rw [after_concat]
    exact h.kept.follow legal
  alive := alive
  passed later through turn old := by
    have through := (queued later).mp through
    exact passed later through turn old (h.passed later through turn old)
  outstanding turn := by
    have silent : ¬beat.QueuesAfter turn := by
      cases beat with
      | queue later gap => exact absurd rfl (unannounced later gap)
      | take | drop | gone | mark => simp [Beat.QueuesAfter]
    simp only [outstanding_concat, h.outstanding, lost, Ne, queued, silent, not_false_eq_true, and_true]
    constructor
    · rintro (⟨push, dropped⟩ | ⟨lost, behind⟩)
      · exact ⟨.inl ⟨push, dropped⟩, unpassed push turn dropped⟩
      · exact ⟨.inr lost, behind⟩
    · rintro ⟨dropped | lost, behind⟩
      · exact .inl dropped
      · exact .inr ⟨lost, behind⟩
  announced := announced_concat.mpr ⟨h.announced, fun later gap eq => absurd eq (unannounced later gap)⟩

theorem take (push : Nat) (seq : UInt32) : Sound (log ++ [.take push seq (after log).gap]) := by
  have fresh := (h.kept.untaken _).mpr (Nat.le_refl _)
  have fate : ∀ turn, (after (log ++ [.take push seq (after log).gap])).fate turn =
      if turn = (after log).count then .underWay push else (after log).fate turn := by
    intro turn
    rw [after_concat]
    exact update_apply ..
  refine h.of_not_queue rfl (by simp) ?_ ?_ ?_ ?_ (by simp)
  · intro turn
    rw [fate]
    split <;> simp [h.alive]
  · intro later
    rw [fate]
    split <;> simp_all
  · intro later queued turn old passed
    have := h.kept.lt_count later (by simp [queued])
    simpa [Passed, fate, show turn ≠ (after log).count by omega] using passed
  · intro turn
    simp only [Lost, fate]
    split <;> simp_all

theorem queue {later : Nat} (under : (after log).fate later = .underWay push)
    (ok : ∀ turn < later, (after log).Follows later turn) :
    Sound (log ++ [.queue later ((after log).bit later)]) := by
  have kept := h.kept.settle under .queued nofun nofun
  have step : after (log ++ [.queue later ((after log).bit later)]) = (after log).settle later .queued := after_concat ..
  rw [← step] at kept
  have taken := h.kept.lt_count later (by simp [under])
  refine ⟨kept, fun turn => ?_, fun next queued turn old => ?_, fun turn => ?_, ?_⟩
  · rw [step, fate_settle]
    split
    · nofun
    · exact h.alive turn
  · rw [step, fate_settle] at queued
    unfold Passed
    rw [step, fate_settle]
    by_cases here : turn = later
    · simp [here]
    · rw [if_neg here]
      split at queued
      case isTrue eq => exact (eq ▸ (ok turn (eq ▸ old)).passed)
      case isFalse => exact h.passed next queued turn old
  · rw [outstanding_concat, h.outstanding, step]
    simp only [Lost, fate_settle, Beat.QueuesAfter, reduceCtorEq, exists_false, false_or, Nat.not_lt]
    constructor
    · rintro ⟨⟨lost, unpassed⟩, behind⟩
      have o : turn ≠ later := by
        rintro rfl
        simp [under] at lost
      refine ⟨by simpa [o] using lost, fun next beyond => ?_⟩
      rw [if_neg (by omega)]
      exact unpassed next beyond
    · rintro ⟨lost, unpassed⟩
      have o : turn ≠ later := by
        rintro rfl
        simp at lost
      have behind : later ≤ turn := Nat.le_of_not_lt fun old => unpassed later old (by simp)
      refine ⟨⟨by simpa [o] using lost, fun next beyond => ?_⟩, behind⟩
      simpa [show next ≠ later by omega] using unpassed next beyond
  · refine announced_concat.mpr ⟨h.announced, ?_⟩
    rintro _ _ ⟨⟩ turn old outstanding
    exact h.bit_eq_true taken ok old outstanding

theorem drop (under : (after log).fate turn = .underWay push)
    (ok : ∀ later < (after log).count, turn < later → (after log).fate later ≠ .queued) :
    Sound (log ++ [.drop push turn]) := by
  have unpassed : ∀ later, turn < later → (after log).fate later ≠ .queued := fun later beyond queued =>
    ok later (h.kept.lt_count later (by simp [queued])) beyond queued
  have fate : ∀ o, (after (log ++ [.drop push turn])).fate o =
      if o = turn then .dropped push else (after log).fate o := by
    intro o
    rw [after_concat]
    exact fate_settle ..
  refine h.of_not_queue under (by simp) ?_ ?_ ?_ ?_ ?_
  · intro o
    rw [fate]
    split <;> simp [h.alive]
  · intro later
    rw [fate]
    split <;> simp_all
  · intro later queued o old passed
    -- A loss that is news now was not passed by anyone.
    have away : o ≠ turn := fun eq => unpassed later (eq ▸ old) queued
    simpa [Passed, fate, away] using passed
  · intro o
    simp only [Lost, fate]
    by_cases eq : o = turn
    · simp [eq]
    · simp [eq, Ne.symm eq]
  · rintro _ _ ⟨⟩
    exact unpassed

theorem mark (push : Nat) : Sound (log ++ [.mark push]) := by
  have fate : ∀ turn, (after (log ++ [.mark push])).fate turn =
      if (after log).fate turn = .dropped push then .marked (after log).count else (after log).fate turn := by
    intro turn
    rw [after_concat]
    rfl
  refine h.of_not_queue trivial (by simp) ?_ ?_ ?_ ?_ (by simp)
  · intro turn
    rw [fate]
    split <;> simp [h.alive]
  · intro later
    rw [fate]
    split <;> simp_all
  · intro later queued turn old passed
    have kept : (after log).fate turn ≠ .dropped push := fun dropped => by simp [Passed, dropped] at passed
    simpa [Passed, fate, kept] using passed
  · intro turn
    simp only [Lost, fate]
    split <;> simp_all

theorem concat (legal : (after log).Legal beat) (ok : (after log).Orderly beat) : Sound (log ++ [beat]) := by
  cases beat with
  | take push seq gap =>
    cases legal
    exact h.take push seq
  | queue later gap =>
    obtain ⟨⟨push, under⟩, rfl⟩ := legal
    exact h.queue under ok
  | drop push turn => exact h.drop legal ok
  | gone turn => exact ok.elim
  | mark push => exact h.mark push

theorem gap_iff (settled : (after log).Settled) : (after log).gap ↔ ∃ turn, Outstanding log turn := by
  rw [h.kept.flag]
  constructor
  · rintro ⟨turn, got⟩
    refine ⟨turn, (h.outstanding turn).mpr ⟨.inr ⟨_, got⟩, fun later beyond queued => ?_⟩⟩
    -- Whoever passed the loss was taken after its mark, but nobody was.
    have passed := h.passed later queued turn beyond
    simp only [Passed, got] at passed
    have := h.kept.lt_count later (by simp [queued])
    omega
  · rintro ⟨turn, outstanding⟩
    obtain ⟨lost, unpassed⟩ := (h.outstanding turn).mp outstanding
    have taken := h.kept.lt_count turn (by rcases lost with ⟨_, got⟩ | ⟨_, got⟩ <;> simp [got])
    -- The last pack taken is that loss or came after it, so it was lost too.
    have last : (after log).fate ((after log).count - 1) ≠ .queued := by
      rcases Nat.lt_or_eq_of_le (show turn ≤ (after log).count - 1 by omega) with beyond | eq
      · exact unpassed _ beyond
      · rw [← eq]
        rcases lost with ⟨_, got⟩ | ⟨_, got⟩ <;> simp [got]
    cases fate : (after log).fate ((after log).count - 1) with
    | untaken =>
      have := (h.kept.untaken _).mp fate
      omega
    | underWay push => exact absurd fate (settled _ push).1
    | queued => exact absurd fate last
    | dropped push => exact absurd fate (settled _ push).2
    | marked n =>
      have := h.kept.marked _ n fate
      exact ⟨_, fate.trans (by congr; omega)⟩
    | gone => exact absurd fate (h.alive _)

end Sound

end Conversation
end Wbfuwunel.Streams
