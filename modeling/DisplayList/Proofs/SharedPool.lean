import DisplayList.Proofs.SharedPoolRuns
import Mathlib.Algebra.Order.Group.Multiset
import Mathlib.Data.List.Nodup
import Mathlib.Tactic.Abel

namespace DisplayList

def Arrival.item (a : Arrival) : Item := a.result.map (a.index, ·)

/-- The page at the place `t.1` may come to `t.2`. -/
def CameOf (pages : List Page) (o : RenderOptions) (t : Nat × Arrival) : Prop :=
  ∃ page, pages[t.1]? = some page ∧ (Routine.arrival page o).Yields t.2

namespace Stage

variable {pages : List Page} {o : RenderOptions} {s s' : PageStream} {x y : Stage} {completed : List (Nat × Arrival)}

def places : Stage → List Nat
  | rendering n _ => [n]
  | idle | admitted | rendered .. | sending .. | gone => []

def hand : Stage → List (Nat × Arrival)
  | rendered n a | sending n a => [(n, a)]
  | idle | admitted | rendering .. | gone => []

def Renders (pages : List Page) (o : RenderOptions) : Stage → Prop
  | rendering n rest => ∃ page, pages[n]? = some page ∧ ∀ a, rest.Yields a → (Routine.arrival page o).Yields a
  | idle | admitted | rendered .. | sending .. | gone => True

theorem Move.frame (h : Move s x s' y completed) :
    s' = { s with unclaimed := s'.unclaimed, sent := s'.sent, worker := s'.worker } := by
  cases h <;> rfl

theorem Move.claims (h : Move s x s' y completed) :
    (s'.unclaimed = s.unclaimed ∧ completed.map (·.1) ++ y.places = x.places ∧
      (x.Renders pages o → y.Renders pages o ∧ ∀ t ∈ completed, CameOf pages o t)) ∨
    ∃ page, s.unclaimed = page :: s'.unclaimed ∧ x.places = [] ∧ completed = [] ∧
      y = rendering (s.order.length - s.unclaimed.length) (.arrival page s.options) := by
  cases h with
  | claim h => exact .inr ⟨_, h, rfl, rfl, rfl⟩
  | act =>
    refine .inl ⟨rfl, rfl, ?_⟩
    rintro ⟨page, hpage, hyields⟩
    exact ⟨⟨page, hpage, fun a ha ↦ hyields a ⟨_, ha⟩⟩, List.forall_mem_nil _⟩
  | complete =>
    refine .inl ⟨rfl, rfl, ?_⟩
    rintro ⟨page, hpage, hyields⟩
    refine ⟨trivial, fun t ht ↦ ?_⟩
    rw [List.mem_singleton.1 ht]
    exact ⟨page, hpage, hyields _ rfl⟩
  | enter | leave | finish | goOn | giveUp | send => exact .inl ⟨rfl, rfl, fun _ ↦ ⟨trivial, List.forall_mem_nil _⟩⟩

theorem Move.hands (h : Move s x s' y completed) : ∃ out : List (Nat × Arrival), s'.sent = s.sent ++ out.map (·.2) ∧
    (out + y.hand : Multiset (Nat × Arrival)) ≤ x.hand + completed := by
  cases h with
  | @send n a => exact ⟨[(n, a)], rfl, le_rfl⟩
  | giveUp => exact ⟨[], by simp, Multiset.zero_le _⟩
  | enter | leave | finish | goOn | claim | act | complete => exact ⟨[], by simp, le_rfl⟩

end Stage

namespace PageStream

variable {s s' : PageStream}

def IsOver (s : PageStream) : Prop :=
  s.hasFailed = true ∨ s.order[s.position]? = none ∨ s.isDone = true ∧ s.isWaiting = true

theorem not_isOver_of_receive (hw : s.isWaiting) (h : s.receive = some s') : ¬ s.IsOver := by
  obtain ⟨hfail, index, hi, -⟩ := isWaiting_eq_true hw
  obtain ⟨hd, -⟩ := receive_eq_some h
  rintro (h | h | ⟨h, -⟩)
  · cases hfail.symm.trans h
  · cases hi.symm.trans h
  · cases hd.symm.trans h

theorem not_isOver_of_find {index : Nat} {a : Arrival} (hf : s.hasFailed = false)
    (hi : s.order[s.position]? = some index) (ha : s.early.find? (·.index = index) = some a) : ¬ s.IsOver := by
  rintro (h | h | ⟨-, h⟩)
  · cases hf.symm.trans h
  · cases hi.symm.trans h
  · obtain ⟨-, index', hi', ha'⟩ := isWaiting_eq_true h
    cases hi.symm.trans hi'
    cases ha.symm.trans ha'

end PageStream

namespace SharedPool

variable {pages : List Page} {o : RenderOptions} {s s' : PageStream} {parties before after : List Stage} {x y : Stage}
  {rendered completed served kept mailed : List (Nat × Arrival)} {a : Arrival} {answers : List (Option Item)}
  {asker : Asker} {p q : SharedPool}

def places (parties : List Stage) (rendered : List (Nat × Arrival)) : List Nat :=
  parties.flatMap (·.places) ++ rendered.map (·.1)

/-- All pages that are rendered were claimed, each once. -/
structure Claims (pages : List Page) (o : RenderOptions) (s : PageStream) (parties : List Stage)
    (rendered : List (Nat × Arrival)) : Prop where
  options : s.options = o
  order : s.order = pages.map (·.index)
  unclaimed : s.unclaimed <:+ pages
  once : (places parties rendered).Nodup
  claimed : ∀ n ∈ places parties rendered, n < s.order.length - s.unclaimed.length
  renders : ∀ x ∈ parties, x.Renders pages o
  came : ∀ t ∈ rendered, CameOf pages o t

theorem coe_flatMap {α : Type} (f : Stage → List α) (before : List Stage) (x : Stage) (after : List Stage) :
    (((before ++ x :: after).flatMap f : List α) : Multiset α) = f x + ((before ++ after).flatMap f : List α) := by
  simp only [List.flatMap_append, List.flatMap_cons, ← Multiset.coe_add]
  abel

theorem places_perm (before after : List Stage) (rendered : List (Nat × Arrival))
    (hp : completed.map (·.1) ++ y.places = x.places) :
    (places (before ++ y :: after) (rendered ++ completed)).Perm (places (before ++ x :: after) rendered) := by
  rw [← Multiset.coe_eq_coe, places, places, List.map_append]
  simp only [← Multiset.coe_add, coe_flatMap, ← hp]
  abel

theorem places_claim (before after : List Stage) (rendered : List (Nat × Arrival)) (hp : x.places = []) :
    (places (before ++ y :: after) rendered).Perm (y.places ++ places (before ++ x :: after) rendered) := by
  rw [← Multiset.coe_eq_coe, places, places]
  simp only [← Multiset.coe_add, coe_flatMap, hp, Multiset.coe_nil]
  abel

theorem Claims.renders_put (h : Claims pages o s (before ++ x :: after) rendered) (hy : y.Renders pages o) :
    ∀ z ∈ before ++ y :: after, z.Renders pages o := by
  intro z hz
  rcases List.mem_append.1 hz with hz | hz
  · exact h.renders z (List.mem_append_left _ hz)
  · rcases List.mem_cons.1 hz with rfl | hz
    · exact hy
    · exact h.renders z (List.mem_append_right _ (List.mem_cons_of_mem _ hz))

theorem Claims.claim {page : Page} (h : Claims pages o s (before ++ x :: after) rendered) (hx : x.places = [])
    (hs : s'.options = s.options ∧ s'.order = s.order) (hu : s.unclaimed = page :: s'.unclaimed) :
    Claims pages o s'
      (before ++ .rendering (s.order.length - s.unclaimed.length) (.arrival page s.options) :: after) rendered := by
  obtain ⟨front, hfront⟩ := h.unclaimed
  have hpages : pages = front ++ page :: s'.unclaimed := by rw [← hfront, hu]
  have hn : s.order.length - s.unclaimed.length = front.length := by
    rw [h.order, hu, hpages]
    simp
  rw [hn, h.options]
  have hy : (Stage.rendering front.length (.arrival page o)).Renders pages o := ⟨page, by simp [hpages], fun _ ↦ id⟩
  have hperm := places_claim before after rendered (y := .rendering front.length (.arrival page o)) hx
  refine ⟨hs.1.trans h.options, hs.2.trans h.order, ⟨front ++ [page], by simp [hpages]⟩, ?_, ?_, h.renders_put hy,
    h.came⟩
  · refine hperm.nodup_iff.2 (List.nodup_cons.2 ⟨fun hmem ↦ ?_, h.once⟩)
    have hlt := h.claimed _ hmem
    omega
  · intro m hm
    have hlen : s'.order.length - s'.unclaimed.length = front.length + 1 := by
      rw [hs.2, h.order, hpages]
      simp
      omega
    rw [hlen]
    rcases List.mem_cons.1 (hperm.subset hm) with rfl | hm
    · exact Nat.lt_succ_self _
    · have hlt := h.claimed m hm
      omega

theorem Claims.party (h : Claims pages o s (before ++ x :: after) rendered) (hm : x.Move s s' y completed) :
    Claims pages o s' (before ++ y :: after) (rendered ++ completed) := by
  have ho : s'.options = s.options := by rw [hm.frame]
  have hord : s'.order = s.order := by rw [hm.frame]
  obtain ⟨hu, hp, hr⟩ | ⟨page, hu, hx, rfl, rfl⟩ := hm.claims
  · obtain ⟨hy, hcompleted⟩ := hr (h.renders x (by simp))
    have hperm := places_perm before after rendered hp
    refine ⟨ho.trans h.options, hord.trans h.order, hu ▸ h.unclaimed, hperm.nodup_iff.2 h.once, ?_, h.renders_put hy,
      ?_⟩
    · intro n hn
      rw [hord, hu]
      exact h.claimed n (hperm.subset hn)
    · intro t ht
      exact (List.mem_append.1 ht).elim (h.came t) (hcompleted t)
  · rw [List.append_nil]
    exact h.claim hx ⟨ho, hord⟩ hu

/-- Where the results are that were not lost, the result of a rendering at most at one place. -/
structure Tracks (s : PageStream) (parties : List Stage) (rendered served kept mailed : List (Nat × Arrival)) :
    Prop where
  early : s.early = kept.map (·.2)
  sent : s.sent = mailed.map (·.2)
  traced : (served + kept + mailed + (parties.flatMap (·.hand) : List (Nat × Arrival)) :
    Multiset (Nat × Arrival)) ≤ rendered
  position : s.position = served.length
  in_order : served.map (·.2.index) <+: s.order
  goes_on : s.hasFailed = false → ∀ t ∈ served, t.2.result.isOk
  fails_last : ∀ t ∈ served.dropLast, t.2.result.isOk

theorem Tracks.party (h : Tracks s (before ++ x :: after) rendered served kept mailed)
    (hm : x.Move s s' y completed) :
    ∃ mailed', Tracks s' (before ++ y :: after) (rendered ++ completed) served kept mailed' := by
  obtain ⟨out, hout, hle⟩ := hm.hands
  have hs := hm.frame
  refine ⟨mailed ++ out, ?_, ?_, ?_, ?_, ?_, ?_, h.fails_last⟩
  · rw [hs]
    exact h.early
  · rw [hout, h.sent, List.map_append]
  · have htraced := h.traced
    rw [coe_flatMap] at htraced ⊢
    rw [← Multiset.coe_add, ← Multiset.coe_add]
    generalize (((before ++ after).flatMap Stage.hand : List (Nat × Arrival)) : Multiset (Nat × Arrival)) = others
      at htraced ⊢
    calc (served + kept + (mailed + out) + (y.hand + others) : Multiset (Nat × Arrival))
        = out + y.hand + (served + kept + mailed + others) := by abel
      _ ≤ x.hand + completed + (served + kept + mailed + others) := by gcongr
      _ = served + kept + mailed + (x.hand + others) + completed := by abel
      _ ≤ rendered + completed := by gcongr
  · rw [hs]
    exact h.position
  · rw [hs]
    exact h.in_order
  · rw [hs]
    exact h.goes_on

theorem Tracks.receive (h : Tracks s parties rendered served kept mailed) (hr : s.receive = some s') :
    ∃ kept' mailed', Tracks s' parties rendered served kept' mailed' := by
  obtain ⟨-, a, rest, hs, rfl⟩ := PageStream.receive_eq_some hr
  cases mailed with
  | nil => cases hs.symm.trans h.sent
  | cons t mailed =>
    obtain ⟨rfl, rfl⟩ := List.cons.inj (hs.symm.trans h.sent)
    have hsub : ((kept.filter (·.2.index ≠ t.2.index) : List (Nat × Arrival)) : Multiset (Nat × Arrival)) ≤ kept :=
      Multiset.coe_le.2 List.filter_sublist.subperm
    refine ⟨t :: kept.filter (·.2.index ≠ t.2.index), mailed, ?_, rfl, ?_, h.position, h.in_order, h.goes_on,
      h.fails_last⟩
    · simp only [PageStream.keep, h.early, List.map_cons, List.filter_map]
      rfl
    · refine le_trans ?_ h.traced
      rw [← Multiset.cons_coe, ← Multiset.cons_coe, ← Multiset.singleton_add, ← Multiset.singleton_add]
      generalize ((parties.flatMap Stage.hand : List (Nat × Arrival)) : Multiset (Nat × Arrival)) = hands
      calc (served + ({t} + (kept.filter (·.2.index ≠ t.2.index) : List (Nat × Arrival))) + mailed + hands :
            Multiset (Nat × Arrival))
          = served + {t} + mailed + hands + (kept.filter (·.2.index ≠ t.2.index) : List (Nat × Arrival)) := by abel
        _ ≤ served + {t} + mailed + hands + kept := by gcongr
        _ = served + kept + ({t} + mailed) + hands := by abel

theorem Tracks.hand_out {index : Nat} (h : Tracks s parties rendered served kept mailed) (hf : s.hasFailed = false)
    (hi : s.order[s.position]? = some index) (ha : s.early.find? (·.index = index) = some a) (s' : PageStream)
    (hs : s'.early = s.early.filter (·.index ≠ index) ∧ s'.sent = s.sent ∧ s'.position = s.position + 1 ∧
      s'.order = s.order) (hok : s'.hasFailed = false → a.result.isOk) :
    ∃ n kept', Tracks s' parties rendered (served ++ [(n, a)]) kept' mailed := by
  obtain ⟨hearly, hsent, hposition, horder⟩ := hs
  have hmem := List.mem_of_find?_eq_some ha
  obtain rfl : a.index = index := by simpa using List.find?_some ha
  rw [h.early] at hmem
  obtain ⟨⟨n, b⟩, ht, hb⟩ := List.mem_map.1 hmem
  rw [show b = a from hb] at ht
  refine ⟨n, kept.filter (·.2.index ≠ a.index), ?_, hsent.trans h.sent, ?_, ?_, ?_, ?_, ?_⟩
  · rw [hearly, h.early, List.filter_map]
    rfl
  · have hsplit : (kept.filter (·.2.index = a.index) + kept.filter (·.2.index ≠ a.index) :
        Multiset (Nat × Arrival)) = kept := by
      simpa using Multiset.coe_eq_coe.2 (List.filter_append_perm (·.2.index = a.index) kept)
    have hone : {(n, a)} ≤ (kept.filter (·.2.index = a.index) : Multiset (Nat × Arrival)) := by
      rw [Multiset.singleton_le]
      simpa using ht
    refine le_trans ?_ h.traced
    rw [← Multiset.coe_add, Multiset.coe_singleton, ← hsplit]
    generalize ((parties.flatMap Stage.hand : List (Nat × Arrival)) : Multiset (Nat × Arrival)) = hands
    calc (served + {(n, a)} + kept.filter (·.2.index ≠ a.index) + mailed + hands : Multiset (Nat × Arrival))
        = {(n, a)} + (served + kept.filter (·.2.index ≠ a.index) + mailed + hands) := by abel
      _ ≤ kept.filter (·.2.index = a.index) + (served + kept.filter (·.2.index ≠ a.index) + mailed + hands) := by
        gcongr
      _ = served + (kept.filter (·.2.index = a.index) + kept.filter (·.2.index ≠ a.index)) + mailed + hands := by
        abel
  · rw [hposition, h.position, List.length_append, List.length_singleton]
  · obtain ⟨rest, hrest⟩ := h.in_order
    rw [h.position, ← hrest, List.getElem?_append_right (by simp), List.length_map, Nat.sub_self] at hi
    cases rest with
    | nil => cases hi
    | cons i rest =>
      cases hi
      exact ⟨rest, by simp [horder, ← hrest]⟩
  · intro hf' t ht
    rcases List.mem_append.1 ht with ht | ht
    · exact h.goes_on hf t ht
    · rw [List.mem_singleton.1 ht]
      exact hok hf'
  · rw [List.dropLast_concat]
    exact h.goes_on hf

theorem Claims.along (h : Claims pages o s parties rendered)
    (hs : s'.options = s.options ∧ s'.order = s.order ∧ s'.unclaimed = s.unclaimed) :
    Claims pages o s' parties rendered := by
  obtain ⟨ho, hord, hu⟩ := hs
  refine ⟨ho.trans h.options, hord.trans h.order, hu ▸ h.unclaimed, h.once, ?_, h.renders, h.came⟩
  rw [hord, hu]
  exact h.claimed

theorem Tracks.along (h : Tracks s parties rendered served kept mailed)
    (hs : s'.early = s.early ∧ s'.sent = s.sent ∧ s'.position = s.position ∧ s'.order = s.order ∧
      s'.hasFailed = s.hasFailed) : Tracks s' parties rendered served kept mailed := by
  obtain ⟨hearly, hsent, hposition, horder, hfailed⟩ := hs
  refine ⟨hearly.trans h.early, hsent.trans h.sent, h.traced, hposition.trans h.position, ?_, ?_, h.fails_last⟩
  · rw [horder]
    exact h.in_order
  · rw [hfailed]
    exact h.goes_on

def answer (t : Nat × Arrival) : Option Item := some t.2.item

def Told (s : PageStream) (answers : List (Option Item)) (served : List (Nat × Arrival)) : Asker → Prop
  | .free => ∃ k, answers = served.map answer ++ .replicate k none ∧ (k = 0 ∨ s.IsOver)
  | .stopping e _ => answers ++ [some (.error e)] = served.map answer

theorem Told.along (h : Told s answers served asker) (hs : s.IsOver → s'.IsOver) : Told s' answers served asker := by
  cases asker with
  | free =>
    obtain ⟨k, hk, hover⟩ := h
    exact ⟨k, hk, hover.imp_right hs⟩
  | stopping e rest => exact h

theorem Told.eq_of_not_isOver (h : Told s answers served .free) (hs : ¬ s.IsOver) :
    answers = served.map answer := by
  obtain ⟨k, hk, hover⟩ := h
  rw [hover.resolve_right hs] at hk
  simpa using hk

theorem Told.nothing (h : Told s answers served .free) (hs : s'.IsOver) :
    Told s' (answers ++ [none]) served .free := by
  obtain ⟨k, hk, -⟩ := h
  exact ⟨k + 1, by rw [hk, List.append_assoc, List.replicate_succ'], .inr hs⟩

theorem answer_of_find {index : Nat} {early : List Arrival} (ha : early.find? (·.index = index) = some a) (n : Nat) :
    answer (n, a) = some (a.result.map (index, ·)) := by
  obtain rfl : a.index = index := by simpa using List.find?_some ha
  rfl

structure Sound (pages : List Page) (o : RenderOptions) (p : SharedPool) : Prop where
  claims : Claims pages o p.stream p.parties p.rendered
  told : ∃ served kept mailed, Tracks p.stream p.parties p.rendered served kept mailed ∧
    Told p.stream p.answers served p.asker

theorem Sound.next (h : Sound pages o p) (free : p.asker = .free) (can : p.CanAnswer)
    (hn : ∀ e, p.stream.next.1 ≠ some (.error e)) :
    Sound pages o { p with stream := p.stream.next.2, answers := p.answers ++ [p.stream.next.1] } := by
  obtain ⟨hclaims, served, kept, mailed, htracks, htold⟩ := h
  rw [free] at htold
  rcases PageStream.next_cases (can.imp_right And.left) with
    ⟨hover, he⟩ | ⟨hw, he⟩ | ⟨index, a, hf, hi, ha, ⟨ir, hir, he⟩ | ⟨e, -, he⟩⟩
  · rw [he]
    refine ⟨hclaims, served, kept, mailed, htracks, ?_⟩
    rw [free]
    exact htold.nothing (hover.imp_right .inl)
  · rw [he]
    refine ⟨hclaims.along ⟨rfl, rfl, rfl⟩, served, kept, mailed, htracks.along ⟨rfl, rfl, rfl, rfl, rfl⟩, ?_⟩
    rw [free]
    exact htold.nothing (.inr (.inr ⟨rfl, hw⟩))
  · rw [he]
    have hanswers := htold.eq_of_not_isOver (PageStream.not_isOver_of_find hf hi ha)
    obtain ⟨n, kept', ht⟩ := htracks.hand_out hf hi ha { p.stream with
      early := p.stream.early.filter (·.index ≠ index), position := p.stream.position + 1 } ⟨rfl, rfl, rfl, rfl⟩
      fun _ ↦ by rw [hir]; rfl
    refine ⟨hclaims.along ⟨rfl, rfl, rfl⟩, _, kept', mailed, ht, ?_⟩
    rw [free]
    refine ⟨0, ?_, .inl rfl⟩
    rw [hanswers, List.map_append, List.map_singleton, answer_of_find ha, hir]
    simp [Except.map]
  · rw [he] at hn
    exact absurd rfl (hn e)

theorem Sound.fail {e : RenderError} (h : Sound pages o p) (free : p.asker = .free) (can : p.CanAnswer)
    (hn : p.stream.next.1 = some (.error e)) : Sound pages o
      { p with stream := { p.stream.next.2 with worker := p.stream.worker }, asker := .stopping e .callOff } := by
  obtain ⟨hclaims, served, kept, mailed, htracks, htold⟩ := h
  rw [free] at htold
  rcases PageStream.next_cases (can.imp_right And.left) with
    ⟨-, he⟩ | ⟨-, he⟩ | ⟨index, a, hf, hi, ha, ⟨ir, -, he⟩ | ⟨e', hr, he⟩⟩
  · rw [he] at hn
    cases hn
  · rw [he] at hn
    cases hn
  · rw [he] at hn
    cases hn
  · rw [he] at hn ⊢
    cases hn
    have hanswers := htold.eq_of_not_isOver (PageStream.not_isOver_of_find hf hi ha)
    obtain ⟨n, kept', ht⟩ := htracks.hand_out hf hi ha { p.stream with
      early := p.stream.early.filter (·.index ≠ index), position := p.stream.position + 1, hasFailed := true }
      ⟨rfl, rfl, rfl, rfl⟩ nofun
    refine ⟨hclaims.along ⟨rfl, rfl, rfl⟩, _, kept', mailed, ht.along ⟨rfl, rfl, rfl, rfl, rfl⟩, ?_⟩
    rw [Told, hanswers, List.map_append, List.map_singleton, answer_of_find ha, hr]
    rfl

theorem Sound.move (h : Sound pages o p) (hm : Move p q) : Sound pages o q := by
  cases hm with
  | party parties hm =>
    obtain ⟨hclaims, served, kept, mailed, htracks, htold⟩ := h
    rw [parties] at hclaims htracks
    obtain ⟨mailed', ht⟩ := htracks.party hm
    refine ⟨hclaims.party hm, served, kept, mailed', ht, htold.along fun hover ↦ ?_⟩
    rw [hm.frame]
    exact hover
  | receive free waits hr =>
    obtain ⟨hclaims, served, kept, mailed, htracks, htold⟩ := h
    obtain ⟨kept', mailed', ht⟩ := htracks.receive hr
    have hover := PageStream.not_isOver_of_receive waits hr
    obtain ⟨-, a, rest, -, rfl⟩ := PageStream.receive_eq_some hr
    exact ⟨hclaims.along ⟨rfl, rfl, rfl⟩, served, kept', mailed', ht, htold.along fun h ↦ absurd h hover⟩
  | next free can hn => exact h.next free can hn
  | fail free can hn => exact h.fail free can hn
  | stop stopping =>
    obtain ⟨hclaims, served, kept, mailed, htracks, htold⟩ := h
    rw [stopping] at htold
    exact ⟨hclaims.along ⟨rfl, rfl, rfl⟩, served, kept, mailed, htracks.along ⟨rfl, rfl, rfl, rfl, rfl⟩, htold⟩
  | stopped stopping =>
    obtain ⟨hclaims, served, kept, mailed, htracks, htold⟩ := h
    rw [stopping, Told] at htold
    exact ⟨hclaims, served, kept, mailed, htracks, 0, by simpa using htold, .inl rfl⟩
  | join x => exact ⟨h.claims, h.told⟩
  | other others =>
    obtain ⟨hclaims, served, kept, mailed, htracks, htold⟩ := h
    exact ⟨hclaims.along ⟨rfl, rfl, rfl⟩, served, kept, mailed, htracks.along ⟨rfl, rfl, rfl, rfl, rfl⟩, htold.along id⟩

theorem Sound.run (h : Sound pages o p) (hr : Run p q) : Sound pages o q := by
  induction hr with
  | refl => exact h
  | tail _ hm ih => exact ih.move hm

theorem Sound.create {n : Nat} (h : create pages o n = .ok p) : Sound pages o p := by
  rw [SharedPool.create, PageStream.create] at h
  cases hv : o.limits.violation? with
  | some v =>
    rw [hv] at h
    cases h
  | none =>
    rw [hv] at h
    cases h
    have hidle {α : Type} (f : Stage → List α) (hf : f .idle = []) : (List.replicate n Stage.idle).flatMap f = [] := by
      rw [List.flatMap_eq_nil_iff]
      intro x hx
      rw [List.eq_of_mem_replicate hx, hf]
    have hplaces : places (.replicate n .idle) [] = [] := by
      rw [places, hidle Stage.places rfl]
      rfl
    refine ⟨⟨rfl, rfl, List.suffix_refl _, ?_, ?_, ?_, List.forall_mem_nil _⟩, [], [], [],
      ⟨rfl, rfl, ?_, rfl, ?_, ?_, ?_⟩, 0, rfl, .inl rfl⟩
    · rw [hplaces]
      exact List.nodup_nil
    · rw [hplaces]
      exact List.forall_mem_nil _
    · intro x hx
      rw [List.eq_of_mem_replicate hx]
      trivial
    · dsimp only
      rw [hidle Stage.hand rfl]
      simp
    · exact List.nil_prefix
    · exact fun _ ↦ List.forall_mem_nil _
    · exact List.forall_mem_nil _

def index? : Option Item → Option Nat
  | some (.ok (index, _)) => some index
  | some (.error _) | none => none

theorem index?_answer_of_isOk {t : Nat × Arrival} (h : t.2.result.isOk) : index? (answer t) = some t.2.index := by
  rw [answer, Arrival.item]
  cases hr : t.2.result with
  | ok ir => rfl
  | error e =>
    rw [hr] at h
    cases h

theorem indices_in_order (h : ∀ t ∈ served.dropLast, t.2.result.isOk) :
    (served.map answer).filterMap index? <+: served.map (·.2.index) := by
  rcases List.eq_nil_or_concat served with rfl | ⟨front, t, rfl⟩
  · exact List.nil_prefix
  · rw [List.concat_eq_append, List.dropLast_concat] at h
    have hfront : (front.map answer).filterMap index? = front.map (·.2.index) := by
      rw [List.filterMap_map, ← List.filterMap_eq_map]
      exact List.filterMap_congr fun t ht ↦ index?_answer_of_isOk (h t ht)
    rw [List.concat_eq_append, List.map_append, List.map_append, List.filterMap_append, hfront,
      List.prefix_append_right_inj, List.map_singleton, List.map_singleton]
    cases hr : t.2.result with
    | ok ir => simp [index?_answer_of_isOk (t := t) (by rw [hr]; rfl)]
    | error e =>
      rw [answer, Arrival.item, hr]
      exact List.nil_prefix

/-- What `p` has answered, and which renderings that came of. -/
structure Answered (pages : List Page) (o : RenderOptions) (p : SharedPool) (sources : List (Nat × Arrival)) :
    Prop where
  answers : ∃ k, p.answers = sources.map answer ++ .replicate k none
  in_order : p.answers.filterMap index? <+: pages.map (·.index)
  fails_last : ∀ t ∈ sources.dropLast, t.2.result.isOk
  once : (sources.map (·.1)).Nodup
  rendered : ∀ t ∈ sources, t ∈ p.rendered
  rendered_once : (p.rendered.map (·.1)).Nodup
  /-- Each rendering is one of the page at its place. A page that keeps to its list delivers what it would alone. -/
  came : ∀ t ∈ p.rendered, ∃ page, pages[t.1]? = some page ∧ t.2.index = page.index ∧
    (Routine.arrival page o).Yields t.2 ∧
    (page.KeepsToList → ∀ ir, t.2.result = .ok ir → (page.arrival o).result = .ok ir)

theorem Tracks.fails_last_of_isPrefix {sources : List (Nat × Arrival)}
    (h : Tracks s parties rendered served kept mailed) (hp : sources <+: served) :
    ∀ t ∈ sources.dropLast, t.2.result.isOk := by
  obtain ⟨rest, rfl⟩ := hp
  intro t ht
  apply h.fails_last
  cases rest with
  | nil => rwa [List.append_nil]
  | cons u rest =>
    rw [List.dropLast_append_of_ne_nil (List.cons_ne_nil u rest)]
    exact List.mem_append_left _ (List.dropLast_subset _ ht)

theorem Told.sources (h : Told s answers served asker) :
    ∃ sources k, sources <+: served ∧ answers = sources.map answer ++ .replicate k none := by
  cases asker with
  | free =>
    obtain ⟨k, hk, -⟩ := h
    exact ⟨served, k, List.prefix_refl _, hk⟩
  | stopping e rest =>
    obtain ⟨sources, last, rfl, hsources, -⟩ := List.map_eq_append_iff.1 (Eq.symm h)
    exact ⟨sources, 0, List.prefix_append _ _, by simp [hsources]⟩

theorem Sound.answered (h : Sound pages o p) : ∃ sources, Answered pages o p sources := by
  obtain ⟨hclaims, served, kept, mailed, htracks, htold⟩ := h
  obtain ⟨sources, k, hserved, hanswers⟩ := htold.sources
  have hrendered : (p.rendered.map (·.1)).Nodup := (List.nodup_append.1 hclaims.once).2.1
  have hle : (sources : Multiset (Nat × Arrival)) ≤ p.rendered := by
    refine le_trans (Multiset.coe_le.2 hserved.sublist.subperm) (le_trans ?_ htracks.traced)
    rw [add_assoc, add_assoc]
    exact Multiset.le_add_right _ _
  have hfails := htracks.fails_last_of_isPrefix hserved
  refine ⟨sources, ⟨k, hanswers⟩, ?_, hfails, ?_, ?_, hrendered, ?_⟩
  · have hnone : (List.replicate k none).filterMap index? = [] := by
      rw [List.filterMap_eq_nil_iff]
      intro x hx
      rw [List.eq_of_mem_replicate hx]
      rfl
    rw [hanswers, List.filterMap_append, hnone, List.append_nil]
    rw [← hclaims.order]
    exact ((indices_in_order hfails).trans (hserved.map _)).trans htracks.in_order
  · have hmap := Multiset.map_le_map (f := Prod.fst) hle
    exact Multiset.coe_nodup.1 (Multiset.nodup_of_le hmap hrendered)
  · exact fun t ht ↦ Multiset.subset_of_le hle ht
  · intro t ht
    obtain ⟨page, hpage, hyields⟩ := hclaims.came t ht
    obtain ⟨hindex, halone⟩ := Routine.arrival_of_yields hyields
    exact ⟨page, hpage, hindex, hyields, halone⟩

/-- However the parties, the one who asked and all others take their turns, the stream hands out pages in order, each
rendering at most once, at most one failure and nothing after it. -/
theorem answered_of_run {n : Nat} (hp : create pages o n = .ok p) (hr : Run p q) :
    ∃ sources, Answered pages o q sources :=
  ((Sound.create hp).run hr).answered

def sketch : Page where
  index := 0
  content := { steps := [fun r ↦ (⟨r.list.add .save [], r.worker⟩, .done)] }

def plain : RenderOptions := ⟨.oplist, {}, {}⟩

def sketched : Arrival := sketch.arrival plain

def interrupted : Arrival := ⟨0, .error (.terminated sketch.taskName)⟩

def sketches (unclaimed : List Page) (sent : List Arrival) (w : Worker) : PageStream :=
  { options := plain, order := [0, 0], unclaimed, sent, worker := w }

def calm : Worker := ⟨#[⟨sketch.taskName, false, true⟩], [], false⟩

def calledOff : Worker := ⟨#[⟨sketch.taskName, false, true⟩, ⟨sketch.taskName, true, true⟩], [], true⟩

theorem answered_of_run_called_off : ∃ p q ir sources, create [sketch, sketch] plain 1 = .ok p ∧ Run p q ∧
    q.answers = [some (.ok (0, ir)), some (.error (.terminated sketch.taskName)), none] ∧
    Answered [sketch, sketch] plain q sources := by
  obtain ⟨ir, hir⟩ : ∃ ir, sketched.result = .ok ir := ⟨_, rfl⟩
  have hcreate : create [sketch, sketch] plain 1 =
      .ok { stream := sketches [sketch, sketch] [] {}, parties := [.idle] } := rfl
  have hfirst : Run { stream := sketches [sketch, sketch] [] {}, parties := [.idle] }
      { stream := sketches [sketch] [sketched] calm, parties := [.idle], rendered := [(0, sketched)] } :=
    (run_party [] [] rfl (.enter (by decide))).trans <| (run_party [] [] rfl (.claim rfl)).trans <|
      (run_rendering [] [] _ rfl).trans <| (run_party [] [] rfl (.goOn (by decide))).trans <|
      run_party [] [] rfl (.send (by decide))
  have hsecond : Run
      { stream := sketches [sketch] [sketched] calm, parties := [.idle], rendered := [(0, sketched)] }
      { stream := sketches [] [sketched, interrupted] calledOff, parties := [.idle], others := [.done ()],
        rendered := [(0, sketched), (1, interrupted)] } :=
    (run_party [] [] rfl (.enter (by decide))).trans <| (run_party [] [] rfl (.claim rfl)).trans <|
      (run_party [] [] rfl .act).trans <| run_callOff.trans <| (run_rendering [] [] _ rfl).trans <|
      (run_party [] [] rfl (.goOn (by decide))).trans <| run_party [] [] rfl (.send (by decide))
  obtain ⟨q, hasked, hanswers⟩ : ∃ q, Run
      { stream := sketches [] [sketched, interrupted] calledOff, parties := [.idle], others := [.done ()],
        rendered := [(0, sketched), (1, interrupted)] } q ∧
      q.answers = [some (.ok (0, ir)), some (.error (.terminated sketch.taskName)), none] :=
    ⟨_, .head (.receive rfl rfl rfl) <| (run_page rfl rfl rfl rfl hir).trans <| .head (.receive rfl rfl rfl) <|
      (run_failure rfl rfl rfl rfl rfl).trans <| run_next rfl (.inl Bool.false_ne_true), rfl⟩
  have hr := (hfirst.trans hsecond).trans hasked
  obtain ⟨sources, hsources⟩ := answered_of_run hcreate hr
  exact ⟨_, q, ir, sources, hcreate, hr, hanswers, hsources⟩

end SharedPool

end DisplayList
