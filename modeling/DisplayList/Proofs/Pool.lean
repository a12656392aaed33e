import DisplayList.Proofs.PoolRuns
import Mathlib.Data.List.Nodup

namespace DisplayList

def Party.hand (o : RenderOptions) : Party → List Arrival
  | rendering page => [page.arrival o]
  | sending a => [a]
  | idle | gone => []

namespace Pool

variable {pages served pending : List Page} {o : RenderOptions} {s s' : PageStream} {parties before after : List Party}
  {items : List Item} {ended : Bool}

/-- What is on its way from those who render to the one who asked. -/
def underway (o : RenderOptions) (s : PageStream) (parties : List Party) : List Arrival :=
  s.early ++ (s.sent ++ parties.flatMap (·.hand o))

def Keyed (pages pending : List Page) (o : RenderOptions) (s : PageStream) (parties : List Party) : Prop :=
  (pages.map (·.index)).Nodup ∨
    parties.length = 1 ∧ s.early.length ≤ 1 ∧ underway o s parties = pending.map (·.arrival o)

/-- No page failed. Pages were served, others are pending, and all others are unclaimed. -/
structure Tracks (pages : List Page) (o : RenderOptions) (s : PageStream) (parties : List Party) (items : List Item)
    (served pending : List Page) : Prop where
  pages_eq : pages = served ++ (pending ++ s.unclaimed)
  position : s.position = served.length
  items_eq : items = served.map (·.item o)
  succeeded : ∀ x ∈ items, x.isOk
  goes_on : s.isCancelled = false
  takes_tasks : s.worker.isTerminated = false
  keep : ∀ page, .rendering page ∈ parties → page.KeepsToList
  perm : (underway o s parties).Perm (pending.map (·.arrival o))
  keyed : Keyed pages pending o s parties
  left : .gone ∈ parties → s.unclaimed = []

theorem sole {x : Party} (h : (before ++ x :: after).length = 1) : before = [] ∧ after = [] := by
  rw [List.length_append, List.length_cons] at h
  exact ⟨List.eq_nil_of_length_eq_zero (by omega), List.eq_nil_of_length_eq_zero (by omega)⟩

theorem underway_eq (x : Party) : underway o s (before ++ x :: after) =
    (s.early ++ s.sent ++ before.flatMap (·.hand o)) ++ (x.hand o ++ after.flatMap (·.hand o)) := by
  simp [underway]

theorem mem_put {x y z : Party} (h : z ∈ before ++ y :: after) : z = y ∨ z ∈ before ++ x :: after := by
  rcases List.mem_append.mp h with h | h
  · exact .inr (List.mem_append_left _ h)
  · rcases List.mem_cons.mp h with h | h
    · exact .inl h
    · exact .inr (List.mem_append_right _ (List.mem_cons_of_mem _ h))

theorem Keyed.put {x y : Party} (h : Keyed pages pending o s (before ++ x :: after)) {pending' : List Page}
    (he : s'.early = s.early)
    (hu : before = [] → after = [] → underway o s [x] = pending.map (·.arrival o) →
      underway o s' [y] = pending'.map (·.arrival o)) : Keyed pages pending' o s' (before ++ y :: after) := by
  rcases h with h | ⟨hl, hn, h⟩
  · exact .inl h
  · obtain ⟨rfl, rfl⟩ := sole hl
    exact .inr ⟨rfl, he ▸ hn, hu rfl rfl h⟩

section

variable {page : Page} {a : Arrival} {x y : Party}

theorem Tracks.keep_put (h : Tracks pages o s (before ++ x :: after) items served pending)
    (hy : ∀ page, y = .rendering page → page.KeepsToList) :
    ∀ page, .rendering page ∈ before ++ y :: after → page.KeepsToList := by
  intro page hp
  rcases mem_put hp with hp | hp
  · exact hy page hp.symm
  · exact h.keep page hp

theorem Tracks.left_put (h : Tracks pages o s (before ++ x :: after) items served pending) (hy : y ≠ .gone) :
    .gone ∈ before ++ y :: after → s.unclaimed = [] := by
  intro hg
  rcases mem_put hg with hg | hg
  · exact absurd hg.symm hy
  · exact h.left hg

theorem Tracks.claim (h : Tracks pages o s (before ++ .idle :: after) items served pending)
    (hk : ∀ p ∈ pages, p.KeepsToList) (hc : s.claim = some (page, s')) :
    Tracks pages o s' (before ++ .rendering page :: after) items served (pending ++ [page]) := by
  obtain ⟨-, rest, hu, rfl⟩ := PageStream.claim_eq_some hc
  have hpages : pages = served ++ (pending ++ [page] ++ rest) := by
    rw [h.pages_eq, hu, List.append_assoc, List.singleton_append]
  have hpage : page ∈ pages := by
    rw [hpages]
    simp
  refine ⟨hpages, h.position, h.items_eq, h.succeeded, h.goes_on, h.takes_tasks, ?_, ?_, ?_, ?_⟩
  · apply h.keep_put
    intro p hp
    cases hp
    exact hk page hpage
  · -- What will come of the page joins what is underway, wherever its party stands among the others.
    have hperm := h.perm
    rw [underway_eq] at hperm ⊢
    rw [List.map_append]
    refine (List.perm_middle.trans ?_).trans (hperm.append_right _)
    exact List.perm_append_singleton _ _ |>.symm
  · exact h.keyed.put rfl fun _ _ he ↦ by
      simp only [underway, Party.hand, List.flatMap_cons, List.flatMap_nil, List.map_append] at he ⊢
      rw [← he]
      simp
  · intro hg
    have hnone : s.unclaimed = [] := h.left_put (by simp) hg
    cases hu.symm.trans hnone

theorem Tracks.leave (h : Tracks pages o s (before ++ .idle :: after) items served pending) (hc : s.claim = none) :
    Tracks pages o s (before ++ .gone :: after) items served pending := by
  refine ⟨h.pages_eq, h.position, h.items_eq, h.succeeded, h.goes_on, h.takes_tasks, ?_, ?_, ?_, ?_⟩
  · apply h.keep_put
    intro p hp
    cases hp
  · have hperm := h.perm
    rw [underway_eq] at hperm ⊢
    exact hperm
  · exact h.keyed.put rfl fun _ _ he ↦ he
  · exact fun _ ↦ PageStream.claim_eq_none hc h.goes_on

theorem Tracks.render (h : Tracks pages o s (before ++ .rendering page :: after) items served pending)
    (ho : s.options = o) : Tracks pages o (s.render page).2 (before ++ .sending (s.render page).1 :: after) items
      served pending := by
  have hk : page.KeepsToList := h.keep page (List.mem_append_right _ List.mem_cons_self)
  obtain ⟨w, hw, hr⟩ := PageStream.render_eq hk ho h.takes_tasks
  rw [hr]
  refine ⟨h.pages_eq, h.position, h.items_eq, h.succeeded, h.goes_on, hw, ?_, ?_, ?_, ?_⟩
  · apply h.keep_put
    intro p hp
    cases hp
  · have hperm := h.perm
    rw [underway_eq] at hperm ⊢
    exact hperm
  · exact h.keyed.put rfl fun _ _ he ↦ he
  · exact h.left_put (by simp)

theorem Tracks.send (h : Tracks pages o s (before ++ .sending a :: after) items served pending) :
    Tracks pages o (s.send a) (before ++ .idle :: after) items served pending := by
  have hs : s.send a = { s with sent := s.sent ++ [a] } := by
    rw [PageStream.send, h.goes_on]
    rfl
  rw [hs]
  refine ⟨h.pages_eq, h.position, h.items_eq, h.succeeded, h.goes_on, h.takes_tasks, ?_, ?_, ?_, ?_⟩
  · apply h.keep_put
    intro p hp
    cases hp
  · have hperm := h.perm
    rw [underway_eq] at hperm ⊢
    refine List.Perm.trans ?_ hperm
    simp only [Party.hand, List.append_assoc, List.nil_append, List.cons_append]
    exact (List.perm_middle.symm.append_left _).append_left _
  · exact h.keyed.put rfl fun _ _ he ↦ by
      simp only [underway, Party.hand, List.flatMap_cons, List.flatMap_nil] at he ⊢
      rw [← he]
      simp
  · exact h.left_put (by simp)

theorem Tracks.pending_nodup (h : Tracks pages o s parties items served pending)
    (hn : (pages.map (·.index)).Nodup) : (pending.map (·.index)).Nodup := by
  refine hn.sublist ?_
  rw [h.pages_eq]
  exact ((List.sublist_append_left _ _).trans (List.sublist_append_right _ _)).map _

theorem Tracks.indices_nodup (h : Tracks pages o s parties items served pending)
    (hn : (pages.map (·.index)).Nodup) : ((underway o s parties).map (·.index)).Nodup := by
  have hp : ((underway o s parties).map (·.index)).Perm (pending.map (·.index)) := by
    have hp := h.perm.map (·.index)
    rwa [List.map_map] at hp
  exact hp.nodup_iff.mpr (h.pending_nodup hn)

theorem Tracks.order_eq (h : Tracks pages o s parties items served pending) (ho : s.order = pages.map (·.index)) :
    s.order[s.position]? = (pending ++ s.unclaimed).head?.map (·.index) := by
  rw [ho, List.getElem?_map, h.position, h.pages_eq, List.getElem?_append_right le_rfl, Nat.sub_self,
    List.head?_eq_getElem?]

theorem Tracks.early_eq_nil (h : Tracks pages o s parties items served pending) (ho : s.order = pages.map (·.index))
    (hw : s.isWaiting) (he : underway o s parties = pending.map (·.arrival o)) : s.early = [] := by
  obtain ⟨-, index, hi, hf⟩ := PageStream.isWaiting_eq_true hw
  rw [h.order_eq ho] at hi
  cases hearly : s.early with
  | nil => rfl
  | cons b tail =>
    rw [underway, hearly] at he
    cases pending with
    | nil => cases he
    | cons page pending =>
      rw [List.cons_append, List.map_cons, List.cons.injEq] at he
      cases hi
      simp [hearly, he.1, Page.arrival] at hf

theorem Tracks.early_kept {rest : List Arrival} (h : Tracks pages o s parties items served pending)
    (ho : s.order = pages.map (·.index)) (hw : s.isWaiting) (hs : s.sent = a :: rest) :
    s.early.filter (·.index ≠ a.index) = s.early := by
  rcases h.keyed with hn | ⟨-, -, he⟩
  · have hn := h.indices_nodup hn
    rw [underway, hs, List.map_append] at hn
    have hd := List.disjoint_of_nodup_append hn
    rw [List.filter_eq_self]
    intro b hb
    have hne : b.index ≠ a.index := by
      intro heq
      exact hd (List.mem_map_of_mem hb) (by simp [heq])
    simpa using hne
  · rw [h.early_eq_nil ho hw he, List.filter_nil]

theorem Tracks.receive (h : Tracks pages o s parties items served pending) (ho : s.order = pages.map (·.index))
    (hw : s.isWaiting) (hr : s.receive = some s') : Tracks pages o s' parties items served pending := by
  obtain ⟨-, a, rest, hs, rfl⟩ := PageStream.receive_eq_some hr
  have hkept := h.early_kept ho hw hs
  have hkeep : PageStream.keep { s with sent := rest } a =
      { s with sent := rest, early := a :: s.early, mostEarly := max s.mostEarly (a :: s.early).length } := by
    simp only [PageStream.keep, hkept]
  rw [hkeep]
  refine ⟨h.pages_eq, h.position, h.items_eq, h.succeeded, h.goes_on, h.takes_tasks, h.keep, ?_, ?_, h.left⟩
  · have hperm := h.perm
    rw [underway, hs] at hperm
    exact List.perm_middle.symm.trans hperm
  · rcases h.keyed with hn | ⟨hl, -, he⟩
    · exact .inl hn
    · have hnil := h.early_eq_nil ho hw he
      rw [underway, hnil, hs] at he
      exact .inr ⟨hl, by simp [hnil], by simpa [underway, hnil] using he⟩

theorem perm_cons_filter {l : List Arrival} (hn : (l.map (·.index)).Nodup) (ha : a ∈ l) :
    l.Perm (a :: l.filter (·.index ≠ a.index)) := by
  obtain ⟨l₁, l₂, rfl⟩ := List.append_of_mem ha
  rw [List.map_append, List.map_cons, List.nodup_middle, ← List.map_append, List.nodup_cons] at hn
  have hkept : (l₁ ++ l₂).filter (·.index ≠ a.index) = l₁ ++ l₂ := by
    rw [List.filter_eq_self]
    intro b hb
    have hne : b.index ≠ a.index := fun heq ↦ hn.1 (heq ▸ List.mem_map_of_mem hb)
    simpa using hne
  refine List.perm_middle.trans (.cons a (.of_eq ?_))
  rw [List.filter_append] at hkept ⊢
  rw [List.filter_cons_of_neg (by simp), hkept]

theorem Tracks.turn {index : Nat} (h : Tracks pages o s parties items served pending)
    (ho : s.order = pages.map (·.index)) (hi : s.order[s.position]? = some index)
    (hf : s.early.find? (·.index = index) = some a) :
    ∃ page rest, pending = page :: rest ∧ index = page.index ∧ a = page.arrival o ∧
      ∀ s' : PageStream, s'.early = s.early.filter (·.index ≠ index) → s'.sent = s.sent →
        (underway o s' parties).Perm (rest.map (·.arrival o)) ∧ Keyed pages rest o s' parties := by
  have ha : a ∈ s.early := List.mem_of_find?_eq_some hf
  obtain rfl : a.index = index := by simpa using List.find?_some hf
  have hmem : a ∈ pending.map (·.arrival o) := h.perm.subset (List.mem_append_left _ ha)
  rw [h.order_eq ho] at hi
  cases pending with
  | nil => cases hmem
  | cons page rest =>
    have hindex : page.index = a.index := by simpa using hi
    rcases h.keyed with hn | ⟨hl, hlen, he⟩
    · obtain ⟨q, hq, rfl⟩ := List.mem_map.mp hmem
      obtain rfl : q = page := List.inj_on_of_nodup_map (h.pending_nodup hn) hq List.mem_cons_self hindex.symm
      refine ⟨q, rest, rfl, rfl, rfl, fun s' he' hs' ↦ ⟨?_, .inl hn⟩⟩
      have hearly := (List.nodup_append.mp (List.map_append ▸ h.indices_nodup hn)).1
      rw [underway, he', hs']
      exact (((perm_cons_filter hearly ha).symm.append_right _).trans h.perm).cons_inv
    · obtain ⟨b, hb⟩ : ∃ b, s.early = [b] := by
        have hpos := List.length_pos_of_mem ha
        exact List.length_eq_one_iff.mp (by omega)
      obtain rfl : a = b := by simpa [hb] using ha
      rw [underway, hb, List.map_cons, List.singleton_append, List.cons.injEq] at he
      refine ⟨page, rest, rfl, hindex.symm, he.1, fun s' he' hs' ↦ ?_⟩
      have hnil : s'.early = [] := by simp [he', hb]
      have hu : underway o s' parties = rest.map (·.arrival o) := by rw [underway, hnil, hs', List.nil_append, he.2]
      exact ⟨.of_eq hu, .inr ⟨hl, by simp [hnil], hu⟩⟩

theorem Tracks.results_eq (h : Tracks pages o s parties items served pending) :
    resultsInOrder o pages = items ++ upToFailure ((pending ++ s.unclaimed).map (·.item o)) := by
  rw [resultsInOrder, h.pages_eq, List.map_append, ← h.items_eq, upToFailure_append h.succeeded]

theorem Tracks.results_eq_of_order (h : Tracks pages o s parties items served pending)
    (ho : s.order = pages.map (·.index)) (hi : s.order[s.position]? = none) : items = resultsInOrder o pages := by
  rw [h.order_eq ho, Option.map_eq_none_iff, List.head?_eq_none_iff] at hi
  rw [h.results_eq, hi]
  simp [upToFailure]

theorem Tracks.not_isWaiting (h : Tracks pages o s parties items served pending) (ho : s.order = pages.map (·.index))
    (hn : parties ≠ []) (hs : s.sent = []) (hg : ∀ p ∈ parties, p = .gone) : ¬ s.isWaiting := by
  intro hw
  obtain ⟨-, index, hi, hf⟩ := PageStream.isWaiting_eq_true hw
  have hu : s.unclaimed = [] := by
    obtain ⟨p, hp⟩ := List.exists_mem_of_ne_nil parties hn
    exact h.left (hg p hp ▸ hp)
  have hhands : parties.flatMap (·.hand o) = [] := by
    rw [List.flatMap_eq_nil_iff]
    intro p hp
    rw [hg p hp]
    rfl
  have hperm := h.perm
  rw [underway, hs, hhands, List.append_nil, List.append_nil] at hperm
  rw [h.order_eq ho, hu, List.append_nil] at hi
  cases pending with
  | nil => cases hi
  | cons page rest =>
    have hmem : page.arrival o ∈ s.early := hperm.symm.subset (by simp)
    have hne := List.find?_eq_none.mp hf _ hmem
    have hindex : page.index = index := by simpa using hi
    exact hne (by simp [Page.arrival, hindex])

theorem Tracks.next_ok {index : Nat} {ir : Snapshot} (h : Tracks pages o s parties items served pending)
    (ho : s.order = pages.map (·.index)) (hi : s.order[s.position]? = some index)
    (hf : s.early.find? (·.index = index) = some a) (ha : a.result = .ok ir) :
    ∃ served' pending', Tracks pages o
      { s with early := s.early.filter (·.index ≠ index), position := s.position + 1 } parties
      (items ++ [.ok (index, ir)]) served' pending' := by
  obtain ⟨page, rest, rfl, rfl, rfl, hrest⟩ := h.turn ho hi hf
  have hitem : page.item o = .ok (page.index, ir) := by rw [Page.item, ha]; rfl
  obtain ⟨hperm, hkeyed⟩ := hrest
    { s with early := s.early.filter (·.index ≠ page.index), position := s.position + 1 } rfl rfl
  refine ⟨served ++ [page], rest, ?_, ?_, ?_, ?_, h.goes_on, h.takes_tasks, h.keep, hperm, hkeyed, h.left⟩
  · rw [h.pages_eq, List.append_assoc, List.singleton_append, List.cons_append]
  · simp [h.position]
  · rw [List.map_append, ← h.items_eq, List.map_singleton, hitem]
  · intro x hx
    rcases List.mem_append.mp hx with hx | hx
    · exact h.succeeded x hx
    · rw [List.mem_singleton.mp hx]
      rfl

theorem Tracks.next_error {index : Nat} {e : RenderError} (h : Tracks pages o s parties items served pending)
    (ho : s.order = pages.map (·.index)) (hi : s.order[s.position]? = some index)
    (hf : s.early.find? (·.index = index) = some a) (ha : a.result = .error e) :
    items ++ [.error e] = resultsInOrder o pages := by
  obtain ⟨page, rest, rfl, rfl, rfl, -⟩ := h.turn ho hi hf
  have hitem : page.item o = .error e := by rw [Page.item, ha]; rfl
  rw [h.results_eq, List.cons_append, List.map_cons, hitem]
  rfl

end

/-- A pool that hands out the right results, as long as it goes on. -/
structure Sound (pages : List Page) (o : RenderOptions) (p : Pool) : Prop where
  options : p.stream.options = o
  order : p.stream.order = pages.map (·.index)
  parties : p.parties ≠ []
  results : p.stream.hasFailed = true ∨ p.ended = true → p.items = resultsInOrder o pages
  tracks : p.stream.hasFailed = false → ∃ served pending, Tracks pages o p.stream p.parties p.items served pending

theorem Sound.next (h : Sound pages o ⟨s, parties, items, false⟩)
    (hg : ¬ s.isWaiting ∨ s.sent = [] ∧ ∀ p ∈ parties, p = .gone) :
    Sound pages o ⟨s.next.2, parties, items ++ s.next.1.toList, s.next.1.isNone⟩ := by
  obtain ⟨ho, hord, hne, hres, ht⟩ := h
  rcases PageStream.next_cases (hg.imp_right And.left) with
    ⟨hnone, he⟩ | ⟨hw, he⟩ | ⟨index, a, hfail, hi, hf, ⟨ir, ha, he⟩ | ⟨e, ha, he⟩⟩
  · rw [he]
    have hitems : items = resultsInOrder o pages := by
      cases hfail : s.hasFailed with
      | true => exact hres (.inl hfail)
      | false =>
        obtain ⟨served, pending, ht⟩ := ht hfail
        exact ht.results_eq_of_order hord (hnone.resolve_left (by simp [hfail]))
    exact ⟨ho, hord, hne, fun _ ↦ by simpa using hitems, fun hfail ↦ by simpa using ht hfail⟩
  · obtain ⟨served, pending, ht⟩ := ht (PageStream.isWaiting_eq_true hw).1
    obtain ⟨hs, hgone⟩ := hg.resolve_left (not_not_intro hw)
    exact absurd hw (ht.not_isWaiting hord hne hs hgone)
  · rw [he]
    obtain ⟨served, pending, ht⟩ := ht hfail
    refine ⟨ho, hord, hne, ?_, fun _ ↦ ht.next_ok hord hi hf ha⟩
    rintro (h | h)
    · cases hfail.symm.trans h
    · cases h
  · rw [he]
    obtain ⟨served, pending, ht⟩ := ht hfail
    refine ⟨ho, hord, hne, fun _ ↦ ht.next_error hord hi hf ha, ?_⟩
    intro h
    cases h

theorem Sound.along {parties' : List Party} (h : Sound pages o ⟨s, parties, items, ended⟩)
    (hs : s'.options = s.options ∧ s'.order = s.order ∧ s'.hasFailed = s.hasFailed) (hn : parties' ≠ [])
    (ht : ∀ served pending, Tracks pages o s parties items served pending →
      ∃ served' pending', Tracks pages o s' parties' items served' pending') :
    Sound pages o ⟨s', parties', items, ended⟩ := by
  obtain ⟨ho, hord, hfail⟩ := hs
  refine ⟨ho.trans h.options, hord.trans h.order, hn, fun hf ↦ h.results (hfail ▸ hf), fun hf ↦ ?_⟩
  obtain ⟨served, pending, htracks⟩ := h.tracks (hfail ▸ hf)
  exact ht served pending htracks

theorem Sound.move {p q : Pool} (h : Sound pages o p) (hk : ∀ page ∈ pages, page.KeepsToList) (hm : Move p q) :
    Sound pages o q := by
  cases hm with
  | @claim _ _ _ _ _ _ page hc =>
    obtain ⟨-, rest, -, rfl⟩ := PageStream.claim_eq_some hc
    exact h.along ⟨rfl, rfl, rfl⟩ (by simp) fun served pending ht ↦ ⟨served, pending ++ [page], ht.claim hk hc⟩
  | leave hc => exact h.along ⟨rfl, rfl, rfl⟩ (by simp) fun served pending ht ↦ ⟨served, pending, ht.leave hc⟩
  | render =>
    exact h.along ⟨rfl, rfl, rfl⟩ (by simp) fun served pending ht ↦ ⟨served, pending, ht.render h.options⟩
  | @send s _ _ _ _ a hc room =>
    have hs : (s.send a).options = s.options ∧ (s.send a).order = s.order ∧ (s.send a).hasFailed = s.hasFailed := by
      unfold PageStream.send
      split <;> exact ⟨rfl, rfl, rfl⟩
    exact h.along hs (by simp) fun served pending ht ↦ ⟨served, pending, ht.send⟩
  | abandon hc =>
    exact h.along ⟨rfl, rfl, rfl⟩ (by simp) fun served pending ht ↦ by cases ht.goes_on.symm.trans hc
  | receive hw hr =>
    obtain ⟨-, a, rest, -, rfl⟩ := PageStream.receive_eq_some hr
    exact h.along ⟨rfl, rfl, rfl⟩ h.parties fun served pending ht ↦ ⟨served, pending, ht.receive h.order hw hr⟩
  | next hg => exact h.next hg

theorem Sound.run {p q : Pool} (h : Sound pages o p) (hk : ∀ page ∈ pages, page.KeepsToList) (hr : Run p q) :
    Sound pages o q := by
  induction hr with
  | refl => exact h
  | tail _ hm ih => exact ih.move hk hm

def fresh (o : RenderOptions) (pages : List Page) (n : Nat) : Pool where
  stream := { options := o, order := pages.map (·.index), unclaimed := pages }
  parties := .replicate n .idle

theorem create_eq {threads available : Nat} (hv : o.limits.violation? = none) :
    create pages o threads available = .ok (fresh o pages (partyCount threads available pages.length)) := by
  rw [create, PageStream.create, hv]
  rfl

theorem partyCount_pos {threads available : Nat} (ha : 0 < available) (n : Nat) :
    0 < partyCount threads available n := by
  unfold partyCount
  split <;> omega

theorem Sound.fresh {n : Nat} (hn : 0 < n) (h : n = 1 ∨ (pages.map (·.index)).Nodup) :
    Sound pages o (fresh o pages n) := by
  have hidle (p : Party) (hp : p ∈ List.replicate n Party.idle) : p = .idle := List.eq_of_mem_replicate hp
  have hunderway : underway o (Pool.fresh o pages n).stream (Pool.fresh o pages n).parties = [] := by
    simp [underway, Pool.fresh, Party.hand]
  refine ⟨rfl, rfl, ?_, ?_, fun _ ↦ ⟨[], [], rfl, rfl, rfl, ?_, rfl, rfl, ?_, ?_, ?_, ?_⟩⟩
  · simpa [Pool.fresh] using hn.ne'
  · rintro (h | h) <;> cases h
  · intro x hx
    cases hx
  · intro page hp
    cases hidle _ hp
  · exact .of_eq hunderway
  · rcases h with h | h
    · exact .inr ⟨by rw [Pool.fresh, List.length_replicate, h], Nat.zero_le 1, hunderway⟩
    · exact .inl h
  · intro hp
    cases hidle _ hp

end Pool

end DisplayList
