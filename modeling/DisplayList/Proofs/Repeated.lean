import DisplayList.Proofs.PoolEnd
import DisplayList.Proofs.Scripts

namespace DisplayList

namespace Page

def blank (index : Nat) : Page := { index, content := { steps := [] } }

def broken (index : Nat) : Page :=
  { index, content := { steps := [fun p ↦ (p, .failed (.evaluator "no such page"))] } }

theorem blank_keepsToList (index : Nat) : (blank index).KeepsToList := by
  constructor
  · intro step hs
    cases hs
  · intro a ha
    cases ha

theorem broken_keepsToList (index : Nat) : (broken index).KeepsToList := by
  constructor
  · intro step hs
    obtain rfl := List.mem_singleton.mp hs
    exact ⟨fun list ↦ (list, .failed (.evaluator "no such page")), fun _ ↦ rfl⟩
  · intro a ha
    cases ha

variable {o : RenderOptions}

theorem blank_arrival (hv : o.limits.violation? = none) (index : Nat) :
    ∃ ir, (blank index).arrival o = ⟨index, .ok ir⟩ := by
  have hfollows : (blank index).Follows ⟨[], []⟩ := ⟨Content.appends_passages [], rfl, by simp⟩
  obtain ⟨houtcome, -⟩ := hfollows.render (w := {}) rfl hv (.assembler {})
  refine ⟨((blank index).render (.assembler {}) o {}).sink.collected, ?_⟩
  rw [arrival, Rendering.result, houtcome]
  rfl

theorem broken_arrival (hv : o.limits.violation? = none) (index : Nat) :
    (broken index).arrival o = ⟨index, .error (.evaluator "no such page")⟩ := by
  have hfresh : Worker.isTerminated {} = false := rfl
  obtain ⟨task, w, hs, -, ht⟩ := Worker.startNew_ok hfresh (broken index).taskName
  let list := Builder.create ((broken index).listOptions o) (some (.assembler {}))
  have he : (broken index).content.evaluate task ⟨list, w⟩ =
      (.error (.evaluator "no such page"), { (broken index).content with taken := 1 }, ⟨list, w⟩) := by
    rw [Content.evaluate, broken, List.drop_zero, Content.takeSteps_failed ht rfl]
  rw [arrival, render, hs]
  dsimp only
  rw [produce, hv]
  dsimp only
  rw [draw, he]
  rfl

end Page

namespace Pool

variable {o : RenderOptions} {s : PageStream} {order : List Nat} {n index : Nat} {page : Page}
  {rest unclaimed : List Page} {early : List Arrival} {a : Arrival} (parties before after : List Party) (items : List Item)

structure Stands (s : PageStream) (o : RenderOptions) (order : List Nat) (position : Nat) (unclaimed : List Page)
    (early : List Arrival) : Prop where
  options : s.options = o
  order : s.order = order
  position : s.position = position
  unclaimed : s.unclaimed = unclaimed
  early : s.early = early
  sent : s.sent = []
  isDone : s.isDone = false
  hasFailed : s.hasFailed = false
  isCancelled : s.isCancelled = false
  worker : s.worker.isTerminated = false

theorem Stands.claim (h : Stands s o order n (page :: rest) early) :
    ∃ s', Move ⟨s, before ++ .idle :: after, items, false⟩ ⟨s', before ++ .rendering page :: after, items, false⟩ ∧
      Stands s' o order n rest early := by
  refine ⟨{ s with unclaimed := rest }, .claim ?_, h.options, h.order, h.position, rfl, h.early, h.sent, h.isDone,
    h.hasFailed, h.isCancelled, h.worker⟩
  simp only [PageStream.claim, h.isCancelled, h.unclaimed, Bool.false_eq_true, if_false]

theorem Stands.isWaiting (h : Stands s o order n unclaimed early) (hi : order[n]? = some index)
    (hf : early.find? (·.index = index) = none) : s.isWaiting := by
  simp [PageStream.isWaiting, h.hasFailed, h.order, h.position, h.early, hi, hf]

theorem Stands.finish (h : Stands s o order n unclaimed early) (hk : page.KeepsToList) (hi : order[n]? = some index)
    (hf : early.find? (·.index = index) = none) :
    ∃ s', Run ⟨s, before ++ .rendering page :: after, items, false⟩ ⟨s', before ++ .idle :: after, items, false⟩ ∧
      Stands s' o order n unclaimed (page.arrival o :: early.filter (·.index ≠ page.index)) := by
  obtain ⟨w, hw, hr⟩ := PageStream.render_eq hk h.options h.worker
  have hrender : Move ⟨s, before ++ .rendering page :: after, items, false⟩
      ⟨{ s with worker := w }, before ++ .sending (page.arrival o) :: after, items, false⟩ := by
    have hm : Move ⟨s, before ++ .rendering page :: after, items, false⟩
        ⟨(s.render page).2, before ++ .sending (s.render page).1 :: after, items, false⟩ := .render
    rwa [hr] at hm
  have hsend : Move ⟨{ s with worker := w }, before ++ .sending (page.arrival o) :: after, items, false⟩
      ⟨{ s with worker := w, sent := [page.arrival o] }, before ++ .idle :: after, items, false⟩ := by
    have hs : PageStream.send { s with worker := w } (page.arrival o) =
        { s with worker := w, sent := [page.arrival o] } := by
      simp [PageStream.send, h.isCancelled, h.sent]
    have hc : ¬ s.isCancelled := by simp [h.isCancelled]
    exact hs ▸ .send hc (by simp [h.sent, capacity])
  have hreceive : Move ⟨{ s with worker := w, sent := [page.arrival o] }, before ++ .idle :: after, items, false⟩
      ⟨PageStream.keep { s with worker := w, sent := [] } (page.arrival o), before ++ .idle :: after, items,
        false⟩ := by
    refine .receive (h.isWaiting hi hf) ?_
    simp only [PageStream.receive, h.isDone, Bool.false_eq_true, if_false]
  refine ⟨_, .head hrender (.head hsend (.single hreceive)), h.options, h.order, h.position, h.unclaimed, ?_, rfl,
    h.isDone, h.hasFailed, h.isCancelled, hw⟩
  rw [← h.early]
  rfl

theorem Stands.deliver (h : Stands s o order n (page :: rest) early) (hk : page.KeepsToList)
    (hi : order[n]? = some index) (hf : early.find? (·.index = index) = none) :
    ∃ s', Run ⟨s, before ++ .idle :: after, items, false⟩ ⟨s', before ++ .idle :: after, items, false⟩ ∧
      Stands s' o order n rest (page.arrival o :: early.filter (·.index ≠ page.index)) := by
  obtain ⟨s₁, hm, h₁⟩ := h.claim before after items
  obtain ⟨s₂, hr, h₂⟩ := h₁.finish before after items hk hi hf
  exact ⟨s₂, .head hm hr, h₂⟩

theorem Stands.deliver_all {others : List Page} (hk : ∀ p ∈ others, p.KeepsToList)
    (hne : ∀ p ∈ others, p.index ≠ index) (hi : order[n]? = some index)
    (hf : early.find? (·.index = index) = none) (h : Stands s o order n (others ++ rest) early) :
    ∃ s' early', Run ⟨s, before ++ .idle :: after, items, false⟩ ⟨s', before ++ .idle :: after, items, false⟩ ∧
      Stands s' o order n rest early' ∧ early'.find? (·.index = index) = none := by
  induction others generalizing s early with
  | nil => exact ⟨s, early, .refl, h, hf⟩
  | cons p others ih =>
    obtain ⟨s₁, hr, h₁⟩ := h.deliver before after items (hk p List.mem_cons_self) hi hf
    have hf₁ : (p.arrival o :: early.filter (·.index ≠ p.index)).find? (·.index = index) = none := by
      rw [List.find?_eq_none] at hf ⊢
      intro a ha
      rcases List.mem_cons.mp ha with rfl | ha
      · simp [Page.arrival, hne p List.mem_cons_self]
      · exact hf a (List.mem_of_mem_filter ha)
    obtain ⟨s₂, early₂, hr₂, h₂, hf₂⟩ := ih (fun q hq ↦ hk q (List.mem_cons_of_mem _ hq))
      (fun q hq ↦ hne q (List.mem_cons_of_mem _ hq)) hf₁ h₁
    exact ⟨s₂, early₂, hr.trans hr₂, h₂, hf₂⟩

theorem Stands.next_eq (h : Stands s o order n unclaimed early) (hi : order[n]? = some index)
    (hf : early.find? (·.index = index) = some a) : ¬ s.isWaiting ∧
      ((∃ ir, a.result = .ok ir ∧ s.next = (some (.ok (index, ir)),
          { s with early := s.early.filter (·.index ≠ index), position := s.position + 1 })) ∨
        ∃ e, a.result = .error e ∧ s.next = (some (.error e), PageStream.stop
          { s with early := s.early.filter (·.index ≠ index), position := s.position + 1, hasFailed := true })) := by
  have hw : ¬ s.isWaiting := by simp [PageStream.isWaiting, h.order, h.position, h.early, hi, hf]
  refine ⟨hw, ?_⟩
  rw [← h.order, ← h.position] at hi
  rw [← h.early] at hf
  rcases PageStream.next_cases (.inl hw) with ⟨hnone, -⟩ | ⟨hw', -⟩ | ⟨index', a', -, hi', hf', hnext⟩
  · simp [h.hasFailed, hi] at hnone
  · exact absurd hw' hw
  · obtain rfl := Option.some.inj (hi'.symm.trans hi)
    obtain rfl := Option.some.inj (hf'.symm.trans hf)
    exact hnext

theorem Move.next_of_eq {s' : PageStream} {x : Option Item} (h : ¬ s.isWaiting ∨ s.sent = [] ∧ ∀ p ∈ parties, p = .gone)
    (he : s.next = (x, s')) : Move ⟨s, parties, items, false⟩ ⟨s', parties, items ++ x.toList, x.isNone⟩ := by
  have hm : Move ⟨s, parties, items, false⟩ ⟨s.next.2, parties, items ++ s.next.1.toList, s.next.1.isNone⟩ := .next h
  rwa [he] at hm

theorem Stands.hand_out {ir : Snapshot} (h : Stands s o order n unclaimed early) (hi : order[n]? = some index)
    (hf : early.find? (·.index = index) = some a) (ha : a.result = .ok ir) :
    ∃ s', Move ⟨s, parties, items, false⟩ ⟨s', parties, items ++ [.ok (index, ir)], false⟩ ∧
      Stands s' o order (n + 1) unclaimed (early.filter (·.index ≠ index)) := by
  obtain ⟨hw, ⟨ir', ha', he⟩ | ⟨e, ha', -⟩⟩ := h.next_eq hi hf
  · obtain rfl : ir' = ir := Except.ok.inj (ha'.symm.trans ha)
    exact ⟨_, .next_of_eq _ _ (.inl hw) he, h.options, h.order, congrArg (· + 1) h.position, h.unclaimed, h.early ▸ rfl,
      h.sent, h.isDone, h.hasFailed, h.isCancelled, h.worker⟩
  · cases ha'.symm.trans ha

theorem Stands.fail {e : RenderError} (h : Stands s o order n unclaimed early) (hi : order[n]? = some index)
    (hf : early.find? (·.index = index) = some a) (ha : a.result = .error e) :
    ∃ s', Run ⟨s, parties, items, false⟩ ⟨s', parties, items ++ [.error e], true⟩ := by
  obtain ⟨hw, ⟨ir, ha', -⟩ | ⟨e', ha', he⟩⟩ := h.next_eq hi hf
  · cases ha'.symm.trans ha
  · obtain rfl : e' = e := Except.error.inj (ha'.symm.trans ha)
    have hlast (s' : PageStream) (hfail : s'.hasFailed = true) (items : List Item) :
        Move ⟨s', parties, items, false⟩ ⟨s', parties, items, true⟩ := by
      have hm := Move.next_of_eq parties items (.inl (by simp [PageStream.isWaiting, hfail]))
        (show s'.next = (none, s') by simp [PageStream.next, hfail])
      simpa using hm
    exact ⟨_, .head (.next_of_eq _ _ (.inl hw) he) (.single (hlast _ rfl _))⟩

theorem item_eq {ir : Snapshot} (h : page.arrival o = ⟨index, .ok ir⟩) : page.item o = .ok (index, ir) := by
  have hi : page.index = index := congrArg Arrival.index h
  rw [Page.item, h, hi]
  rfl

theorem Stands.serve {first : List Page} (hk : ∀ p ∈ first, p.KeepsToList)
    (hok : ∀ p ∈ first, ∃ ir, p.arrival o = ⟨p.index, .ok ir⟩) (h : Stands s o order n (first ++ rest) [])
    (ho : order.drop n = (first ++ rest).map (·.index)) :
    ∃ s', Run ⟨s, before ++ .idle :: after, items, false⟩
        ⟨s', before ++ .idle :: after, items ++ first.map (·.item o), false⟩ ∧
      Stands s' o order (n + first.length) rest [] := by
  induction first generalizing s n items with
  | nil =>
    rw [List.map_nil, List.append_nil]
    exact ⟨s, .refl, h⟩
  | cons p first ih =>
    have hi : order[n]? = some p.index := by
      rw [← List.head?_drop, ho]
      rfl
    obtain ⟨ir, hir⟩ := hok p List.mem_cons_self
    obtain ⟨s₁, hr₁, h₁⟩ := h.deliver before after items (hk p List.mem_cons_self) hi rfl
    obtain ⟨s₂, hm₂, h₂⟩ := h₁.hand_out (before ++ .idle :: after) items hi
      (List.find?_cons_of_pos (by simp [Page.arrival])) (congrArg Arrival.result hir)
    have hnil : (p.arrival o :: List.filter (·.index ≠ p.index) []).filter (·.index ≠ p.index) = [] := by
      simp [Page.arrival]
    rw [hnil] at h₂
    have ho₂ : order.drop (n + 1) = (first ++ rest).map (·.index) := by
      rw [← List.tail_drop, ho]
      rfl
    obtain ⟨s₃, hr₃, h₃⟩ := ih (items ++ [.ok (p.index, ir)]) (fun q hq ↦ hk q (List.mem_cons_of_mem _ hq))
      (fun q hq ↦ hok q (List.mem_cons_of_mem _ hq)) h₂ ho₂
    refine ⟨s₃, ?_, ?_⟩
    · have hitems : items ++ (p :: first).map (·.item o) = items ++ [.ok (p.index, ir)] ++ first.map (·.item o) := by
        rw [List.map_cons, item_eq hir, List.append_assoc, List.singleton_append]
      rw [hitems]
      exact (hr₁.tail hm₂).trans hr₃
    · rw [List.length_cons, Nat.add_comm first.length 1, ← Nat.add_assoc]
      exact h₃

def spoiled (first others last : List Nat) (index : Nat) : List Page :=
  first.map .blank ++ .blank index :: (others.map .blank ++ .broken index :: last.map .blank)

theorem blanks_keepsToList (indices : List Nat) : ∀ p ∈ indices.map Page.blank, p.KeepsToList := by
  intro p hp
  obtain ⟨i, -, rfl⟩ := List.mem_map.mp hp
  exact Page.blank_keepsToList i

theorem spoiled_keepsToList {first others last : List Nat} : ∀ p ∈ spoiled first others last index, p.KeepsToList := by
  have h (indices : List Nat) {p : Page} {rest : List Page} (hp : p.KeepsToList) (hr : ∀ q ∈ rest, q.KeepsToList) :
      ∀ q ∈ indices.map Page.blank ++ p :: rest, q.KeepsToList :=
    List.forall_mem_append.mpr ⟨blanks_keepsToList indices, List.forall_mem_cons.mpr ⟨hp, hr⟩⟩
  exact h first (Page.blank_keepsToList index) (h others (Page.broken_keepsToList index) (blanks_keepsToList last))

theorem spoiled_index {first others last : List Nat} :
    (spoiled first others last index).map (·.index) = first ++ index :: (others ++ index :: last) := by
  simp [spoiled, Page.blank, Page.broken, Function.comp_def]

theorem exists_run_spoiled (hv : o.limits.violation? = none) {first others last : List Nat} (hi : index ∉ others)
    (m : Nat) :
    ∃ s, Run (fresh o (spoiled first others last index) (m + 2))
      ⟨s, .rendering (.blank index) :: .replicate (m + 1) .idle,
        (first.map Page.blank).map (·.item o) ++ [.error (.evaluator "no such page")], true⟩ := by
  have h₀ : Stands (fresh o (spoiled first others last index) (m + 2)).stream o
      ((spoiled first others last index).map (·.index)) 0 (spoiled first others last index) [] :=
    ⟨rfl, rfl, rfl, rfl, rfl, rfl, rfl, rfl, rfl, rfl⟩
  have hok : ∀ p ∈ first.map Page.blank, ∃ ir, p.arrival o = ⟨p.index, .ok ir⟩ := by
    intro p hp
    obtain ⟨i, -, rfl⟩ := List.mem_map.mp hp
    exact Page.blank_arrival hv i
  obtain ⟨s₁, hr₁, h₁⟩ := h₀.serve [] (.replicate (m + 1) .idle) [] (blanks_keepsToList first) hok rfl
  simp only [List.nil_append] at hr₁
  have hturn : ((spoiled first others last index).map (·.index))[0 + (first.map Page.blank).length]? = some index := by
    rw [spoiled_index]
    simp
  generalize (first.map Page.blank).map (·.item o) = items at hr₁ ⊢
  -- From here on the page is waited for that the slow party claims.
  obtain ⟨s₂, hm₂, h₂⟩ := h₁.claim [] (.replicate (m + 1) .idle) items
  have hne : ∀ p ∈ others.map Page.blank, p.index ≠ index := by
    intro p hp
    obtain ⟨i, hmem, rfl⟩ := List.mem_map.mp hp
    exact fun heq ↦ hi (heq ▸ hmem)
  obtain ⟨s₃, early, hr₃, h₃, hearly⟩ := h₂.deliver_all [.rendering (.blank index)] (.replicate m .idle) items
    (blanks_keepsToList others) hne hturn rfl
  obtain ⟨s₄, hr₄, h₄⟩ := h₃.deliver [.rendering (.blank index)] (.replicate m .idle) items
    (Page.broken_keepsToList index) hturn hearly
  rw [Page.broken_arrival hv] at h₄
  obtain ⟨s₅, hr₅⟩ := h₄.fail (.rendering (.blank index) :: .replicate (m + 1) .idle) items hturn
    (List.find?_cons_of_pos (by simp)) rfl
  exact ⟨s₅, ((hr₁.tail hm₂).trans (hr₃.trans hr₄)).trans hr₅⟩

theorem exists_repeat {l : List Nat} (h : ¬ l.Nodup) :
    ∃ index first others last, l = first ++ index :: (others ++ index :: last) ∧ index ∉ others := by
  induction l with
  | nil => exact absurd List.nodup_nil h
  | cons i l ih =>
    by_cases hi : i ∈ l
    · obtain ⟨others, last, rfl, hothers⟩ := List.eq_append_cons_of_mem hi
      exact ⟨i, [], others, last, rfl, hothers⟩
    · obtain ⟨index, first, others, last, rfl, hindex⟩ := ih fun hn ↦ h (List.nodup_cons.mpr ⟨hi, hn⟩)
      exact ⟨index, i :: first, others, last, rfl, hindex⟩

theorem resultsInOrder_spoiled (hv : o.limits.violation? = none) (first others last : List Nat) (index : Nat) :
    ∃ ir items, resultsInOrder o (spoiled first others last index) =
      (first.map Page.blank).map (·.item o) ++ .ok (index, ir) :: items := by
  have hok : ∀ x ∈ (first.map Page.blank).map (·.item o), x.isOk := by
    intro x hx
    obtain ⟨p, hp, rfl⟩ := List.mem_map.mp hx
    obtain ⟨i, -, rfl⟩ := List.mem_map.mp hp
    obtain ⟨ir, hir⟩ := Page.blank_arrival hv i
    rw [item_eq hir]
    rfl
  obtain ⟨ir, hir⟩ := Page.blank_arrival hv index
  refine ⟨ir, upToFailure ((others.map Page.blank ++ .broken index :: last.map Page.blank).map (·.item o)), ?_⟩
  rw [resultsInOrder, spoiled, List.map_append, upToFailure_append hok, List.map_cons, item_eq hir, upToFailure]

/-- What is handed out is certain only if no result can be taken for that of another page. -/
theorem inevitably_results_iff (hv : o.limits.violation? = none) {threads available : Nat} (ha : 0 < available)
    (indices : List Nat) :
    (∀ pages : List Page, pages.map (·.index) = indices → (∀ page ∈ pages, page.KeepsToList) →
      ∃ p, create pages o threads available = .ok p ∧
        Inevitably (fun q ↦ q.ended = true ∧ q.items = resultsInOrder o pages) p) ↔
      partyCount threads available indices.length = 1 ∨ indices.Nodup := by
  have hpos : 0 < partyCount threads available indices.length := partyCount_pos ha _
  constructor
  · intro h
    by_contra hnot
    obtain ⟨hcount, hrepeat⟩ := not_or.mp hnot
    obtain ⟨m, hm⟩ : ∃ m, partyCount threads available indices.length = m + 2 :=
      ⟨partyCount threads available indices.length - 2, by omega⟩
    obtain ⟨index, first, others, last, rfl, hothers⟩ := exists_repeat hrepeat
    obtain ⟨p, hp, hinev⟩ := h (spoiled first others last index) spoiled_index spoiled_keepsToList
    have hlength : (spoiled first others last index).length = (first ++ index :: (others ++ index :: last)).length := by
      rw [← spoiled_index, List.length_map]
    rw [create_eq hv, hlength, hm] at hp
    obtain rfl := Except.ok.inj hp
    obtain ⟨s, hr⟩ := exists_run_spoiled hv hothers m
    obtain ⟨ir, items, hresults⟩ := resultsInOrder_spoiled hv first others last index
    have hitems := hinev.items_eq hr rfl
    rw [hresults] at hitems
    cases List.append_cancel_left hitems
  · rintro h pages rfl hk
    rw [List.length_map] at h hpos
    exact ⟨_, create_eq hv, (Sound.fresh hpos h).inevitably hk (.inr rfl)⟩

theorem inevitably_results_shuffled : Limits.violation? {} = none ∧ 0 < 4 ∧
    ∀ pages : List Page, pages.map (·.index) = [4, 0, 2, 1, 3] → (∀ page ∈ pages, page.KeepsToList) →
      ∃ p, create pages {} 3 4 = .ok p ∧
        Inevitably (fun q ↦ q.ended = true ∧ q.items = resultsInOrder {} pages) p :=
  ⟨by decide, by decide, (inevitably_results_iff (by decide) (by decide) [4, 0, 2, 1, 3]).mpr (.inr (by decide))⟩

theorem Stands.give_up (h : Stands s o order n [] early) (hi : order[n]? = some index)
    (hf : early.find? (·.index = index) = none) :
    ∃ s', Run ⟨s, [.idle, .idle], items, false⟩ ⟨s', [.gone, .gone], items, true⟩ := by
  have hclaim : s.claim = none := by simp [PageStream.claim, h.unclaimed]
  have hfirst : Move ⟨s, [] ++ .idle :: [.idle], items, false⟩ ⟨s, [] ++ .gone :: [.idle], items, false⟩ :=
    .leave hclaim
  have hsecond : Move ⟨s, [.gone] ++ .idle :: [], items, false⟩ ⟨s, [.gone] ++ .gone :: [], items, false⟩ :=
    .leave hclaim
  have hw : s.isWaiting := h.isWaiting hi hf
  have hnext : s.next = (none, { s with isDone := true }) := by
    rcases PageStream.next_cases (.inr h.sent) with ⟨hnone, -⟩ | ⟨-, he⟩ | ⟨index', a, -, hi', hf', -⟩
    · simp [h.hasFailed, h.order, h.position, hi] at hnone
    · exact he
    · rw [h.order, h.position, hi] at hi'
      cases hi'
      rw [h.early, hf] at hf'
      cases hf'
  have hlast := Move.next_of_eq [.gone, .gone] items (.inr ⟨h.sent, by simp⟩) hnext
  rw [Option.toList_none, List.append_nil] at hlast
  exact ⟨_, .head hfirst (.head hsecond (.single hlast))⟩

/-- Two pages of one index arrive while a page before them is waited for, and one of them is never handed out. -/
theorem exists_run_lost : ∃ first last,
    create [.blank 0, .blank 1, .blank 1] {} 2 1 = .ok first ∧ Run first last ∧ last.ended = true ∧
      last.items = [(Page.blank 0).item {}, (Page.blank 1).item {}] ∧
      resultsInOrder {} [.blank 0, .blank 1, .blank 1] =
        [(Page.blank 0).item {}, (Page.blank 1).item {}, (Page.blank 1).item {}] := by
  have hv : Limits.violation? {} = none := by decide
  obtain ⟨ir, hir⟩ := Page.blank_arrival (o := {}) hv 0
  obtain ⟨ir', hir'⟩ := Page.blank_arrival (o := {}) hv 1
  have hitem := item_eq hir
  have hitem' := item_eq hir'
  have h₀ : Stands (fresh {} [.blank 0, .blank 1, .blank 1] 2).stream {} [0, 1, 1] 0
      [.blank 0, .blank 1, .blank 1] [] := ⟨rfl, rfl, rfl, rfl, rfl, rfl, rfl, rfl, rfl, rfl⟩
  obtain ⟨s₁, hm₁, h₁⟩ := h₀.claim [] [.idle] []
  obtain ⟨s₂, hr₂, h₂⟩ := h₁.deliver [.rendering (.blank 0)] [] [] (Page.blank_keepsToList 1) rfl rfl
  rw [hir'] at h₂
  obtain ⟨s₃, hr₃, h₃⟩ := h₂.deliver [.rendering (.blank 0)] [] [] (Page.blank_keepsToList 1) rfl rfl
  rw [hir'] at h₃
  obtain ⟨s₄, hr₄, h₄⟩ := h₃.finish [] [.idle] [] (Page.blank_keepsToList 0) rfl rfl
  rw [hir] at h₄
  obtain ⟨s₅, hm₅, h₅⟩ := h₄.hand_out [.idle, .idle] [] rfl rfl rfl
  obtain ⟨s₆, hm₆, h₆⟩ := h₅.hand_out [.idle, .idle] [.ok (0, ir)] rfl rfl rfl
  obtain ⟨s₇, hr₇⟩ := h₆.give_up [.ok (0, ir), .ok (1, ir')] rfl rfl
  have hrun := ((Relation.ReflTransGen.head hm₁ (hr₂.trans (hr₃.trans hr₄))).tail hm₅).tail hm₆ |>.trans hr₇
  refine ⟨_, _, create_eq hv, hrun, rfl, ?_, ?_⟩
  · rw [hitem, hitem']
  · rw [resultsInOrder, List.map_cons, List.map_cons, List.map_cons, hitem, hitem']
    rfl

end Pool

end DisplayList
