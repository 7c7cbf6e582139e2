import Wbfuwunel.Foundation.Positions
import Wbfuwunel.Rooms.AuthChain

/-! What the rows of the auth chain cache say, and what one walk finds. -/

set_option autoImplicit false

namespace Wbfuwunel.Rooms.AuthChain

open Foundation List Store Tables

/-! ## Rows and collected chains -/

theorem shortsBytes_cons (k : ShortEventId) (shorts : List ShortEventId) :
    shortsBytes (k :: shorts) = toBeBytes64 k ++ shortsBytes shorts := rfl

theorem shortsBytes_length (shorts : List ShortEventId) : (shortsBytes shorts).length = 8 * shorts.length := by
  induction shorts with
  | nil => rfl
  | cons k shorts ih => rw [shortsBytes_cons, length_append, toBeBytes64_length, length_cons]; omega

theorem readShorts_append {word : Bytes} (width : word.length = 8) (rest : Bytes) :
    readShorts (word ++ rest) = fromBeBytes64 word :: readShorts rest := by
  match word, width with
  | [_, _, _, _, _, _, _, _], _ => rfl

@[simp] theorem readShorts_shortsBytes (shorts : List ShortEventId) : readShorts (shortsBytes shorts) = shorts := by
  induction shorts with
  | nil => rfl
  | cons k shorts ih =>
    rw [shortsBytes_cons, readShorts_append (toBeBytes64_length k), ih, fromBeBytes64_toBeBytes64]

theorem shortsBytes_injective : Function.Injective shortsBytes := Function.LeftInverse.injective readShorts_shortsBytes

variable {short : ShortEventId}

theorem mem_dedup (chain : List ShortEventId) : short ∈ dedup chain ↔ short ∈ chain := by
  fun_induction dedup chain with
  | case1 a rest ih => simp [ih]
  | case2 a b rest apart ih => simp [ih]
  | case3 chain short => rfl

theorem pairwise_dedup {chain : List ShortEventId} (ord : chain.Pairwise (· ≤ ·)) : (dedup chain).Pairwise (· < ·) := by
  fun_induction dedup chain with
  | case1 a rest ih => exact ih ord.of_cons
  | case2 a b rest apart ih =>
    refine pairwise_cons.mpr ⟨fun o mem => ?_, ih ord.of_cons⟩
    rw [mem_dedup] at mem
    have old : a < b := lt_of_le_of_ne (rel_of_pairwise_cons ord (by simp)) apart
    rcases mem_cons.mp mem with rfl | later
    · exact old
    · exact lt_of_lt_of_le old (rel_of_pairwise_cons ord.of_cons later)
  | case3 chain short =>
    match chain with
    | [] => exact List.Pairwise.nil
    | [_] => exact pairwise_singleton _ _
    | a :: b :: rest => exact (short a b rest rfl).elim

theorem mem_collectChains {chains : List (List ShortEventId)} :
    short ∈ collectChains chains ↔ ∃ chain ∈ chains, short ∈ chain := by
  rw [collectChains, mem_dedup, mem_mergeSort, mem_flatten]

theorem pairwise_collectChains (chains : List (List ShortEventId)) : (collectChains chains).Pairwise (· < ·) := by
  refine pairwise_dedup ?_
  have ord := @List.pairwise_mergeSort ShortEventId (fun a b => decide (a ≤ b))
    (fun a b third => by simpa using le_trans) (fun a b => by simpa using le_total a b)
    chains.flatten
  simpa using ord

/-! ## Ancestors -/

section Ancestors

variable (events : Events) (tables : Tables)

def Follows (left : Option EventId) (event next : EventId) : Prop :=
  left ≠ some next ∧ ∃ pdu, events.pdu event = some pdu ∧ next ∈ pdu.authEvents

def Held (room : RoomId) (event : EventId) : Prop :=
  event ∈ tables.stored ∧ ∃ pdu, events.pdu event = some pdu ∧ pdu.roomId = room

/-- The event and all the walk can find from it are stored and of the room. -/
def Known (room : RoomId) (event : EventId) : Prop :=
  ∀ other, Relation.ReflTransGen (Follows events (events.create room)) event other → Held events tables room other

def leftOut (event : EventId) : Option EventId := (events.pdu event).bind fun pdu => events.create pdu.roomId

def Found (event other : EventId) : Prop := Relation.TransGen (Follows events (leftOut events event)) event other

structure Exact (starting : List EventId) (chain : List ShortEventId) : Prop where
  known : ∀ event ∈ starting, ∃ room, Known events tables room event
  sound : ∀ short ∈ chain, ∃ event ∈ starting, ∃ other, Found events event other ∧ tables.short other = some short
  covers : ∀ event ∈ starting, ∀ other, Found events event other → ∃ short ∈ chain, tables.short other = some short

structure Coherent : Prop where
  distinct : ∀ {event other short}, tables.short event = some short → tables.short other = some short → event = other
  rows : ∀ row ∈ tables.authchainkeyAuthchain.rows, ∃ (starting : List Starting) (chain : List ShortEventId),
    row = (shortsBytes (starting.map Prod.fst), shortsBytes chain) ∧
      (∀ start ∈ starting, tables.short start.2 = some start.1) ∧ Exact events tables (starting.map Prod.snd) chain

end Ancestors

structure Tables.Extends (tables next : Tables) : Prop where
  stored : tables.stored ⊆ next.stored
  shorts : ∀ {event short}, tables.short event = some short → next.short event = some short

def Tables.Unused (tables : Tables) (count : ShortEventId) : Prop := ∀ event, tables.short event ≠ some count

section Tables

variable {es : Events} {t next : Tables} {r : RoomId} {e : EventId} {chain : List ShortEventId}

theorem Tables.Extends.refl (t : Tables) : t.Extends t := ⟨fun _ mem => mem, fun eq => eq⟩

theorem extends_put (t : Tables) (k chain : List ShortEventId) :
    t.Extends (t.putCachedAuthChain k chain) := ⟨fun _ mem => mem, fun eq => eq⟩

theorem Held.mono (held : Held es t r e) (ext' : t.Extends next) : Held es next r e :=
  ⟨ext'.stored held.1, held.2⟩

theorem Known.mono (known : Known es t r e) (ext' : t.Extends next) : Known es next r e :=
  fun o hit => (known o hit).mono ext'

theorem leftOut_of_held (held : Held es t r e) : leftOut es e = es.create r := by
  obtain ⟨-, pdu, stands, rfl⟩ := held
  simp [leftOut, stands]

theorem Known.found_iff (known : Known es t r e) {o : EventId} :
    Found es e o ↔ Relation.TransGen (Follows es (es.create r)) e o := by
  rw [Found, leftOut_of_held (known e .refl)]

theorem Exact.mono {starting : List EventId} (exact : Exact es t starting chain)
    (ext' : t.Extends next) : Exact es next starting chain where
  known e mem := (exact.known e mem).imp fun _ known => known.mono ext'
  sound short mem := by
    obtain ⟨e, start, o, got, numbered⟩ := exact.sound short mem
    exact ⟨e, start, o, got, ext'.shorts numbered⟩
  covers e mem o got := by
    obtain ⟨short, member, numbered⟩ := exact.covers e mem o got
    exact ⟨short, member, ext'.shorts numbered⟩

theorem exact_nil : Exact es t [] [] := ⟨by simp, by simp, by simp⟩

theorem exact_collectChains {starting : List EventId} {parts : List (List EventId × List ShortEventId)}
    (starts : ∀ e, e ∈ starting ↔ ∃ part ∈ parts, e ∈ part.1) (exact : ∀ part ∈ parts, Exact es t part.1 part.2) :
    Exact es t starting (collectChains (parts.map Prod.snd)) where
  known e mem := by
    obtain ⟨part, member, start⟩ := (starts e).mp mem
    exact (exact part member).known e start
  sound short mem := by
    obtain ⟨_, ls, member⟩ := mem_collectChains.mp mem
    obtain ⟨part, within, rfl⟩ := mem_map.mp ls
    obtain ⟨e, start, found⟩ := (exact part within).sound short member
    exact ⟨e, (starts e).mpr ⟨part, within, start⟩, found⟩
  covers e mem o found := by
    obtain ⟨part, member, start⟩ := (starts e).mp mem
    obtain ⟨short, within, numbered⟩ := (exact part member).covers e start o found
    exact ⟨short, mem_collectChains.mpr ⟨part.2, mem_map_of_mem member, within⟩, numbered⟩

variable (ok : Coherent es t)
include ok

theorem Coherent.rows_mono (ext' : t.Extends next)
    (distinct : ∀ {e o short}, next.short e = some short → next.short o = some short → e = o)
    (fewer : ∀ row ∈ next.authchainkeyAuthchain.rows, row ∈ t.authchainkeyAuthchain.rows) :
    Coherent es next where
  distinct := distinct
  rows row mem := by
    obtain ⟨starting, chain, eq, numbered, exact⟩ := ok.rows row (fewer row mem)
    exact ⟨starting, chain, eq, fun start member => ext'.shorts (numbered start member), exact.mono ext'⟩

/-! ## Numbers -/

theorem getOrCreateShorteventid_spec {n : ShortEventId} (unused : t.Unused n) (e : EventId) :
    let numbered := t.getOrCreateShorteventid e n
    Coherent es numbered.1 ∧ t.Extends numbered.1 ∧ numbered.1.short e = some numbered.2 := by
  intro numbered
  simp only [numbered, getOrCreateShorteventid]
  split
  next short stands =>
    exact ⟨ok, .refl t, stands⟩
  next missing =>
    have shorts (o : EventId) : (Store.put t.eventidShorteventid e n).find o = if o = e then some n else t.short o :=
      find_put _ _ _ _
    have ext' : t.Extends { t with eventidShorteventid := t.eventidShorteventid.put e n } := by
      refine ⟨fun _ mem => mem, fun {o short} stands => ?_⟩
      rw [Tables.short, shorts, if_neg, stands]
      rintro rfl
      rw [missing] at stands
      cases stands
    refine ⟨ok.rows_mono ext' ?_ fun _ mem => mem, ext', ?_⟩
    · intro a b short one two
      rw [Tables.short, shorts] at one two
      split at one <;> split at two
      · simp_all
      · cases one
        exact absurd two (unused b)
      · cases two
        exact absurd one (unused a)
      · exact ok.distinct one two
    · rw [short, shorts, if_pos rfl]

/-! ## The cache -/

variable {starting : List Starting} (numbered : ∀ start ∈ starting, t.short start.2 = some start.1)
include numbered

theorem Coherent.put (exact : Exact es t (starting.map Prod.snd) chain) :
    Coherent es (t.putCachedAuthChain (starting.map Prod.fst) chain) where
  distinct := ok.distinct
  rows row mem := by
    rcases mem_put.mp mem with rfl | ⟨mem, -⟩
    · exact ⟨starting, chain, rfl, numbered, exact.mono (extends_put ..)⟩
    · obtain ⟨others, chain, eq, numbered, exact⟩ := ok.rows row mem
      exact ⟨others, chain, eq, numbered, exact.mono (extends_put ..)⟩

theorem Coherent.starting_eq {others : List Starting} (all : ∀ start ∈ others, t.short start.2 = some start.1)
    (eq : starting.map Prod.fst = others.map Prod.fst) : starting = others := by
  induction starting generalizing others with
  | nil => simpa using eq.symm
  | cons start starting ih =>
    cases others with
    | nil => cases eq
    | cons a others =>
      simp only [map_cons, List.cons.injEq] at eq
      have e := ok.distinct (numbered start (by simp)) (eq.1 ▸ all a (by simp))
      rw [Prod.ext eq.1 e, ih (fun start mem => numbered start (by simp [mem]))
        (fun start mem => all start (by simp [mem])) eq.2]

theorem Coherent.hit (cached : t.getCachedAuthChain (starting.map Prod.fst) = some chain) :
    Exact es t (starting.map Prod.snd) chain := by
  rw [getCachedAuthChain] at cached
  split at cached
  next nothing =>
    cases cached
    rw [List.isEmpty_iff, List.map_eq_nil_iff] at nothing
    subst nothing
    exact exact_nil
  · split at cached
    · cases cached
    next v stands =>
      obtain ⟨others, row, eq, known, exact⟩ := ok.rows _ (find_eq_some_iff.mp stands)
      obtain ⟨k, rfl⟩ := Prod.mk.inj eq
      rw [shortsBytes_length, if_pos (Nat.mul_mod_right 8 _), readShorts_shortsBytes] at cached
      cases cached
      rw [ok.starting_eq numbered known (shortsBytes_injective k)]
      exact exact

end Tables

/-! ## The walk -/

namespace Walk

def Met (events : Events) (room : RoomId) (walk : Walk) (event : EventId) : Prop :=
  event ∈ walk.seen ∧ events.create room ≠ some event

structure Sound (events : Events) (tables : Tables) (room : RoomId) (sure : Prop) (event : EventId) (walk : Walk) :
    Prop where
  reached : ∀ other, walk.Met events room other → Relation.TransGen (Follows events (events.create room)) event other
  create : ∀ other, events.create room = some other → other ∈ walk.seen
  todo : ∀ fetch ∈ walk.todo, fetch.event = event ∨ walk.Met events room fetch.event
  results : ∀ fetch ∈ walk.todo, ∀ authEvents, fetch.result = some (.ok authEvents) →
    fetch.event ∈ tables.stored ∧ events.pdu fetch.event = some ⟨authEvents, room⟩
  found : ∀ other ∈ walk.found, walk.Met events room other
  numbers : ∀ short ∈ walk.chain, ∃ other, walk.Met events room other ∧ tables.short other = some short
  met : ∀ other, walk.Met events room other → other ∈ walk.found ∨ ∃ short ∈ walk.chain, tables.short other = some short
  closed : walk.complete → ∀ other, other = event ∨ walk.Met events room other →
    (∃ fetch ∈ walk.todo, fetch.event = other) ∨
      Held events tables room other ∧ ∀ next, Follows events (events.create room) other next → next ∈ walk.seen
  sure : sure → Known events tables room event ∧ walk.complete ∧
    ∀ fetch ∈ walk.todo, ∀ error, fetch.result ≠ some (.error error)

section

variable {es : Events} {tables next : Tables} {r : RoomId} {sure : Prop} {event : EventId} {walk : Walk}
  (h : Sound es tables r sure event walk)
include h

theorem Sound.mono (ext' : tables.Extends next) : Sound es next r sure event walk := { h with
  results fetch mem authEvents ok := by
    obtain ⟨got, stands⟩ := h.results fetch mem authEvents ok
    exact ⟨ext'.stored got, stands⟩
  numbers short mem := by
    obtain ⟨o, met, numbered⟩ := h.numbers short mem
    exact ⟨o, met, ext'.shorts numbered⟩
  met o met := by
    refine (h.met o met).imp_right ?_
    rintro ⟨short, mem, numbered⟩
    exact ⟨short, mem, ext'.shorts numbered⟩
  closed complete o met := (h.closed complete o met).imp_right (And.imp_left fun held => held.mono ext')
  sure certain := ⟨(h.sure certain).1.mono ext', (h.sure certain).2⟩ }

omit h in
theorem sound_start (known : sure → Known es tables r event) : Sound es tables r sure event (start es r event) := by
  have nothing (o : EventId) : ¬(start es r event).Met es r o := by
    rintro ⟨mem, outside⟩
    exact outside (by simpa [start] using mem)
  constructor
  case closed =>
    rintro - o (rfl | met)
    · exact .inl ⟨_, mem_singleton_self _, rfl⟩
    · exact absurd met (nothing o)
  case sure => exact fun certain => ⟨known certain, rfl, by simp [start]⟩
  case reached => exact fun o met => absurd met (nothing o)
  case met => exact fun o met => absurd met (nothing o)
  all_goals simp +contextual [start]

omit h in
theorem getEventAuthEventIds_of_held (held : Held es tables r event) (unreadable error : GetError) :
    getEventAuthEventIds es tables r event unreadable ≠ .error error := by
  obtain ⟨got, pdu, stands, rfl⟩ := held
  simp [getEventAuthEventIds, got, stands]

theorem Sound.event_known (certain : sure) {fetch : Fetch} (mem : fetch ∈ walk.todo) : Held es tables r fetch.event := by
  refine (h.sure certain).1 fetch.event ?_
  rcases h.todo fetch mem with eq | met
  · exact eq ▸ .refl
  · exact (h.reached _ met).to_reflTransGen

variable {position : Nat} {fetched : EventId}

theorem Sound.read (waiting : walk.todo[position]? = some ⟨fetched, none⟩) (unreadable : GetError) :
    Sound es tables r sure event { walk with
      todo := walk.todo.set position ⟨fetched, some (getEventAuthEventIds es tables r fetched unreadable)⟩ } := by
  have before : ⟨fetched, none⟩ ∈ walk.todo := mem_of_getElem? waiting
  refine { h with todo := ?todo, results := ?results, closed := ?closed, sure := ?sure }
  case todo =>
    intro fetch mem
    rcases mem_or_eq_of_mem_set mem with old | rfl
    · exact h.todo fetch old
    · exact h.todo ⟨fetched, none⟩ before
  case results =>
    intro fetch mem authEvents ok
    rcases mem_or_eq_of_mem_set mem with old | rfl
    · exact h.results fetch old authEvents ok
    · exact getEventAuthEventIds_ok (Option.some.inj ok)
  case closed =>
    intro complete other met
    refine (h.closed complete other met).imp_left fun still => ?_
    rw [← mem_map] at still ⊢
    have eq := map_set_of_eq Fetch.event ⟨fetched, some (getEventAuthEventIds es tables r fetched unreadable)⟩ waiting rfl
    exact eq.symm ▸ still
  case sure =>
    intro certain
    refine ⟨(h.sure certain).1, (h.sure certain).2.1, fun fetch mem error => ?_⟩
    rcases mem_or_eq_of_mem_set mem with old | rfl
    · exact (h.sure certain).2.2 fetch old error
    · simpa using getEventAuthEventIds_of_held (h.event_known certain before) unreadable error

theorem Sound.evaluated {result : Except GetError (List EventId)}
    (arrived : walk.todo[position]? = some ⟨fetched, some result⟩) : Sound es tables r sure event
      (Walk.evaluated { walk with todo := walk.todo.eraseIdx position } result) := by
  have before : ⟨fetched, some result⟩ ∈ walk.todo := mem_of_getElem? arrived
  have fewer : ∀ fetch ∈ walk.todo.eraseIdx position, fetch ∈ walk.todo := fun _ mem => mem_of_mem_eraseIdx mem
  have incomplete {error : GetError} (failed : result = .error error) {todo : List Fetch} (fewer : todo ⊆ walk.todo) :
      Sound es tables r sure event { walk with todo := todo, complete := false } := { h with
    todo := fun fetch mem => h.todo fetch (fewer mem)
    results := fun fetch mem => h.results fetch (fewer mem)
    closed := fun complete => by cases complete
    sure := fun certain => ((h.sure certain).2.2 _ before error (by rw [failed])).elim }
  match result with
  | .error .notFound => exact incomplete rfl fewer
  | .error .other => exact incomplete rfl (nil_subset _)
  | .ok authEvents =>
    obtain ⟨got, stands⟩ := h.results _ before authEvents rfl
    obtain ⟨fresh, eq, -, members⟩ := foldl_see authEvents { walk with todo := walk.todo.eraseIdx position }
    have follows (o : EventId) (new : o ∈ fresh) (other_ne : es.create r ≠ some o) :
        Relation.TransGen (Follows es (es.create r)) event o := by
      have edge : Follows es (es.create r) fetched o := ⟨other_ne, _, stands, ((members o).mp new).1⟩
      rcases h.todo _ before with rfl | met
      · exact .single edge
      · exact (h.reached fetched met).tail edge
    have kept (o : EventId) (new : o ∈ fresh) : es.create r ≠ some o :=
      fun create => ((members o).mp new).2 (h.create o create)
    rw [Walk.evaluated, eq]
    constructor
    case reached =>
      rintro o ⟨mem, other_ne⟩
      rcases mem_append.mp mem with new | old
      · exact follows o (by simpa using new) other_ne
      · exact h.reached o ⟨old, other_ne⟩
    case create => exact fun o create => mem_append_right _ (h.create o create)
    case todo =>
      intro fetch mem
      rcases mem_append.mp mem with old | new
      · exact (h.todo fetch (fewer fetch old)).imp_right fun met => ⟨mem_append_right _ met.1, met.2⟩
      · obtain ⟨o, member, rfl⟩ := mem_map.mp new
        exact .inr ⟨mem_append_left _ (by simpa using member), kept o member⟩
    case results =>
      intro fetch mem authEvents ok
      rcases mem_append.mp mem with old | new
      · exact h.results fetch (fewer fetch old) authEvents ok
      · obtain ⟨o, -, rfl⟩ := mem_map.mp new
        cases ok
    case found =>
      intro o mem
      rcases mem_append.mp mem with old | new
      · exact ⟨mem_append_right _ (h.found o old).1, (h.found o old).2⟩
      · exact ⟨mem_append_left _ (by simpa using new), kept o new⟩
    case numbers =>
      intro short mem
      obtain ⟨o, met, numbered⟩ := h.numbers short mem
      exact ⟨o, ⟨mem_append_right _ met.1, met.2⟩, numbered⟩
    case met =>
      rintro o ⟨mem, other_ne⟩
      rcases mem_append.mp mem with new | old
      · exact .inl (mem_append_right _ (by simpa using new))
      · exact (h.met o ⟨old, other_ne⟩).imp_left fun found => mem_append_left _ found
    case closed =>
      intro complete o met
      by_cases this : o = fetched
      · -- The event just evaluated: all it lists is seen now.
        subst this
        refine .inr ⟨⟨got, _, stands, rfl⟩, ?_⟩
        rintro next ⟨-, pdu, again, mem⟩
        cases stands.symm.trans again
        by_cases seen : next ∈ walk.seen
        · exact mem_append_right _ seen
        · exact mem_append_left _ (by simpa [members] using ⟨mem, seen⟩)
      · by_cases new : o ∈ fresh
        · exact .inl ⟨⟨o, none⟩, mem_append_right _ (mem_map.mpr ⟨o, new, rfl⟩), rfl⟩
        · have old : o = event ∨ walk.Met es r o :=
            met.imp_right (And.imp_left fun mem => (mem_append.mp mem).resolve_left (by simpa using new))
          rcases h.closed complete o old with ⟨fetch, mem, rfl⟩ | ⟨held, seen⟩
          · rcases mem_eraseIdx_or mem position with still | gone
            · exact .inl ⟨fetch, mem_append_left _ still, rfl⟩
            · cases arrived.symm.trans gone
              exact absurd rfl this
          · exact .inr ⟨held, fun next edge => mem_append_right _ (seen next edge)⟩
    case sure =>
      intro certain
      refine ⟨(h.sure certain).1, (h.sure certain).2.1, fun fetch mem error => ?_⟩
      rcases mem_append.mp mem with old | new
      · exact (h.sure certain).2.2 fetch (fewer fetch old) error
      · obtain ⟨o, -, rfl⟩ := mem_map.mp new
        simp

theorem Sound.number (extends' : tables.Extends next) {numbered : EventId} {short : ShortEventId}
    (waiting : walk.found[position]? = some numbered) (stands : next.short numbered = some short) :
    Sound es next r sure event { walk with found := walk.found.eraseIdx position, chain := walk.chain ++ [short] } := by
  have after := h.mono extends'
  refine { after with found := ?found, numbers := ?numbers, met := ?met }
  case found => exact fun other mem => h.found other (mem_of_mem_eraseIdx mem)
  case numbers =>
    intro other mem
    rcases mem_append.mp mem with old | new
    · exact after.numbers other old
    · cases mem_singleton.mp new
      exact ⟨numbered, h.found numbered (mem_of_getElem? waiting), stands⟩
  case met =>
    intro other met
    rcases after.met other met with found | ⟨given, mem, eq⟩
    · rcases mem_eraseIdx_or found position with still | gone
      · exact .inl still
      · cases waiting.symm.trans gone
        exact .inr ⟨short, by simp, stands⟩
    · exact .inr ⟨given, mem_append_left _ mem, eq⟩

theorem Sound.exact (complete : walk.complete = true) (todo : walk.todo = []) (got : walk.found = []) :
    Exact es tables [event] walk.chain := by
  have closed (other : EventId) (met : other = event ∨ walk.Met es r other) :=
    (h.closed complete other met).resolve_left (by simp [todo])
  have visits (other : EventId) (path : Relation.ReflTransGen (Follows es (es.create r)) event other) :
      other = event ∨ walk.Met es r other := by
    induction path with
    | refl => exact .inl rfl
    | @tail middle last path edge met => exact .inr ⟨(closed middle met).2 last edge, edge.1⟩
  have known : Known es tables r event := fun other path => (closed other (visits other path)).1
  refine ⟨?_, ?_, ?_⟩
  · simpa using ⟨r, known⟩
  · intro short mem
    obtain ⟨other, met, numbered⟩ := h.numbers short mem
    exact ⟨event, by simp, other, known.found_iff.mpr (h.reached other met), numbered⟩
  · intro start mem other hit
    cases mem_singleton.mp mem
    rw [known.found_iff] at hit
    -- The last step of the path leads to something seen.
    obtain ⟨middle, path, edge⟩ := Relation.TransGen.tail'_iff.mp hit
    have met : walk.Met es r other := ⟨(closed middle (visits middle path)).2 other edge, edge.1⟩
    simpa [got] using h.met other met

theorem Sound.step (ok : Coherent es tables) (action : WalkAction) (unused : ∀ n ∈ action.count, tables.Unused n) :
    Coherent es (walk.step es r tables action).1 ∧ tables.Extends (walk.step es r tables action).1 ∧
      Sound es (walk.step es r tables action).1 r sure event (walk.step es r tables action).2 := by
  cases action with
  | read position unreadable =>
    rw [Walk.step]
    split
    next fetched wait =>
      exact ⟨ok, .refl tables, h.read wait unreadable⟩
    · exact ⟨ok, .refl tables, h⟩
  | eval position =>
    rw [Walk.step]
    split
    next fetched result arrived =>
      exact ⟨ok, .refl tables, h.evaluated arrived⟩
    · exact ⟨ok, .refl tables, h⟩
  | number position n =>
    rw [Walk.step]
    split
    next numbered wait =>
      obtain ⟨after, ext', stands⟩ := getOrCreateShorteventid_spec ok (unused n rfl) numbered
      exact ⟨after, ext', h.number ext' wait stands⟩
    · exact ⟨ok, .refl tables, h⟩

end

end Walk

end Wbfuwunel.Rooms.AuthChain
