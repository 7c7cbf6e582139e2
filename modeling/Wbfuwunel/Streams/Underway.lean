import Wbfuwunel.Streams.GapRuns
import Wbfuwunel.Streams.Topics

/-! What the pushes under way have still to do for one connection, and what each moment leaves of it. -/

set_option autoImplicit false

namespace Wbfuwunel.Streams
open Foundation List Function Option Registry

variable {Topic User Queue Pack PackError : Type}

def Somewhere (pushes : Nat → Option (Push Queue Pack PackError)) (isSo : Nat → Push Queue Pack PackError → Prop) : Prop :=
  ∃ name push, pushes name = some push ∧ isSo name push

section Somewhere

variable {pushes : Nat → Option (Push Queue Pack PackError)} {isSo : Nat → Push Queue Pack PackError → Prop} {name : Nat}

theorem Somewhere.here {push : Push Queue Pack PackError} (h : isSo name push) :
    Somewhere (update pushes name (some push)) isSo :=
  ⟨name, push, update_self .., h⟩

theorem Somewhere.update (got : Somewhere pushes isSo) (name : Nat) (next : Option (Push Queue Pack PackError)) :
    (∃ push, pushes name = some push ∧ isSo name push) ∨ Somewhere (update pushes name next) isSo := by
  obtain ⟨o, push, here, holds⟩ := got
  by_cases eq : o = name
  · subst eq
    exact .inl ⟨push, here, holds⟩
  · exact .inr ⟨o, push, (update_of_ne eq ..).trans here, holds⟩

theorem Somewhere.of_fresh (got : Somewhere pushes isSo) (fresh : pushes name = none)
    (next : Option (Push Queue Pack PackError)) : Somewhere (Function.update pushes name next) isSo := by
  refine (got.update name next).resolve_left ?_
  rintro ⟨push, hit, -⟩
  rw [fresh] at hit
  cases hit

end Somewhere

def Bears (connection : ConnectionId) (push : Push Queue Pack PackError) : Prop :=
  connection ∈ push.candidates ∨ ∃ pair ∈ push.targets, pair.1.connection = connection

namespace Pushing

variable {w : Pushing Topic User Queue Pack PackError} {name : Nat} {push : Push Queue Pack PackError}

/-! ## The moments -/

theorem step_start (fresh : w.pushes name = none) (t : Option Topic) (cs : List ConnectionId)
    (makePack : MakePack Pack PackError) : w.step (.start name t cs makePack) = { w with
        pushes := update w.pushes name (some ⟨makePack, cs.filter (w.registry.isStillInTopic t), [], []⟩) } := by
  simp [step, fresh]

theorem pushes_take (c : ConnectionId) (rest : List ConnectionId) :
    (w.take name push c rest).pushes = update w.pushes name (some { push with
      candidates := rest
      targets := push.targets ++ (takeTarget (w.registry, []) c).2.map fun t =>
        (t, (Conversation.after (w.log c)).count) }) := rfl

theorem registry_take (c : ConnectionId) (rest : List ConnectionId) :
    (w.take name push c rest).registry = (takeTarget (w.registry, []) c).1 := rfl

theorem registry_send (t : Target Queue) (turn : Nat) (rest : List (Target Queue × Nat))
    (answer : Except QueueError Unit) : (w.send name push t turn rest answer).registry = w.registry := by
  unfold send
  cases push.makePack.tried t answer <;> rfl

theorem pushes_send (t : Target Queue) (turn : Nat) (rest : List (Target Queue × Nat))
    (answer : Except QueueError Unit) : (w.send name push t turn rest answer).pushes =
      update w.pushes name (some { push with
        targets := rest
        dropped := push.dropped ++ if push.makePack.tried t answer = .dropped then [(t.connection, turn)] else [] }) := by
  unfold send
  cases push.makePack.tried t answer <;> simp [settle]

theorem isNone_take {o : Nat} (none : (w.pushes o).isNone) (name : Nat) : ((w.step (.take name)).pushes o).isNone := by
  rcases w.step_take name with eq | ⟨push, c, rest, here, -, next⟩
  · rwa [eq]
  · have differ : o ≠ name := by
      rintro rfl
      simp [here] at none
    rwa [next, pushes_take, update_of_ne differ]

theorem isNone_mark {o : Nat} (none : (w.pushes o).isNone) (name : Nat) : ((w.step (.mark name)).pushes o).isNone := by
  rcases w.step_mark name with eq | ⟨push, here, -, -, next⟩
  · rwa [eq]
  · have differ : o ≠ name := by
      rintro rfl
      simp [here] at none
    rw [next]
    exact (congrArg _ (update_of_ne differ ..)).trans none

theorem still_take (w : Pushing Topic User Queue Pack PackError) (name : Nat) :
    Registry.Still w.registry (w.step (.take name)).registry := by
  rcases w.step_take name with eq | ⟨push, c, rest, -, -, next⟩
  · rw [eq]
    exact .still ⟨rfl, rfl, rfl⟩ rfl
  · rw [next]
    exact takeTarget_still (w.registry, []) c

theorem still_mark (w : Pushing Topic User Queue Pack PackError) (name : Nat) :
    Registry.Still w.registry (w.step (.mark name)).registry := by
  rcases w.step_mark name with eq | ⟨push, -, -, -, next⟩
  · rw [eq]
    exact .still ⟨rfl, rfl, rfl⟩ rfl
  · rw [next]
    exact markGap_still _ _

/-! ## What is borne -/

variable {isSo : Nat → Prop} {c : ConnectionId}

theorem bears_take (subscribed : w.registry.isSubscribed c)
    (got : Somewhere w.pushes fun name push => isSo name ∧ Bears c push) (name : Nat) :
    Somewhere (w.step (.take name)).pushes fun name push => isSo name ∧ Bears c push := by
  rcases w.step_take name with eq | ⟨push, candidate, rest, here, wait, next⟩
  · rwa [eq]
  rw [next, pushes_take]
  rcases got.update name _ with ⟨push', hit, so, bears⟩ | away
  · obtain rfl := some.inj (here.symm.trans hit)
    refine Somewhere.here ⟨so, ?_⟩
    rcases bears with mem | ⟨pair, mem, own⟩
    · rw [wait] at mem
      rcases mem_cons.mp mem with rfl | later
      · obtain ⟨s, entry⟩ := isSome_iff_exists.mp subscribed
        refine .inr ?_
        rw [(takeTarget_self entry).1]
        exact ⟨_, mem_append_right _ mem_cons_self, rfl⟩
      · exact .inl later
    · exact .inr ⟨pair, mem_append_left _ mem, own⟩
  · exact away

theorem bears_mark (got : Somewhere w.pushes fun name push => isSo name ∧ Bears c push) (name : Nat) :
    Somewhere (w.step (.mark name)).pushes fun name push => isSo name ∧ Bears c push := by
  rcases w.step_mark name with eq | ⟨push, here, taken, sent, next⟩
  · rwa [eq]
  rw [next]
  refine (got.update name none).resolve_left ?_
  rintro ⟨push', hit, -, bears⟩
  obtain rfl := some.inj (here.symm.trans hit)
  simp [Bears, taken, sent] at bears

theorem bears_send (here : w.pushes name = some push) (taken : push.candidates = []) {t : Target Queue}
    {turn : Nat} {rest : List (Target Queue × Nat)} (wait : push.targets = (t, turn) :: rest)
    (answer : Except QueueError Unit)
    (got : Somewhere w.pushes fun name push => isSo name ∧ Bears c push) :
    t.connection = c ∧ isSo name ∨ Somewhere (w.send name push t turn rest answer).pushes fun name push =>
        isSo name ∧ Bears c push := by
  rw [pushes_send]
  rcases got.update name _ with ⟨push', hit, so, bears⟩ | away
  · obtain rfl := some.inj (here.symm.trans hit)
    rcases bears with candidate | ⟨pair, mem, own⟩
    · simp [taken] at candidate
    · rw [wait] at mem
      rcases mem_cons.mp mem with rfl | behind
      · exact .inl ⟨own, so⟩
      · exact .inr (Somewhere.here ⟨so, .inr ⟨pair, behind, own⟩⟩)
  · exact .inr away

end Pushing

/-! ## Who listens -/

namespace Registry

variable {g : Registry Topic User Queue} {t : Topic} {c : ConnectionId}

section

variable (mem : c ∈ g.topics.members t)
include mem

theorem rows_of_mem : ∃ cs, g.topics.rows t = some cs ∧ c ∈ cs := by
  unfold Index.members at mem
  cases hit : g.topics.rows t with
  | none => simp [hit] at mem
  | some cs => exact ⟨cs, rfl, by simpa [hit] using mem⟩

theorem isStillInTopic_of_mem : g.isStillInTopic (some t) c := by
  obtain ⟨cs, hit, among⟩ := rows_of_mem mem
  simp [isStillInTopic, hit, among]

theorem isListened_of_mem : g.isListened t := by
  obtain ⟨cs, hit, -⟩ := rows_of_mem mem
  simp [isListened, hit]

end

theorem mem_listeners {user : User} (eq : g.userOf c = some user)
    (mem : c ∈ g.topics.members t) : (c, user) ∈ g.listeners t := by
  obtain ⟨cs, hit, among⟩ := rows_of_mem mem
  obtain ⟨s, got, rfl⟩ := map_eq_some_iff.mp eq
  simp only [listeners, hit, mem_filterMap, Finset.mem_sort]
  exact ⟨c, among, by simp [got]⟩

end Registry
end Wbfuwunel.Streams
