import DisplayList.Proofs.Rendering

namespace DisplayList

def Page.arrival (o : RenderOptions) (p : Page) : Arrival := ⟨p.index, (p.render (.assembler {}) o {}).result⟩

def Page.item (o : RenderOptions) (p : Page) : Item := (p.arrival o).result.map (p.index, ·)

def upToFailure : List Item → List Item
  | [] => []
  | .ok x :: items => .ok x :: upToFailure items
  | .error e :: _ => [.error e]

def resultsInOrder (o : RenderOptions) (pages : List Page) : List Item := upToFailure (pages.map (·.item o))

theorem upToFailure_append {items : List Item} (h : ∀ x ∈ items, x.isOk) (rest : List Item) :
    upToFailure (items ++ rest) = items ++ upToFailure rest := by
  induction items with
  | nil => rfl
  | cons x items ih =>
    have hx := h x List.mem_cons_self
    cases x with
    | ok x => simp only [List.cons_append, upToFailure, ih fun y hy ↦ h y (List.mem_cons_of_mem _ hy)]
    | error e => cases hx

namespace PageStream

variable {s s' : PageStream}

theorem render_eq {page : Page} {o : RenderOptions} (hk : page.KeepsToList) (ho : s.options = o)
    (hw : s.worker.isTerminated = false) :
    ∃ w, w.isTerminated = false ∧ s.render page = (page.arrival o, { s with worker := w }) := by
  have hfresh : Worker.isTerminated {} = false := rfl
  obtain ⟨houtcome, hsink, hw⟩ := page.render_beside hk hw hfresh (.assembler {}) o
  refine ⟨_, hw, ?_⟩
  rw [render, ho, Page.arrival, Rendering.result, Rendering.result, houtcome, hsink]

theorem claim_eq_some {page : Page} (h : s.claim = some (page, s')) :
    s.isCancelled = false ∧ ∃ rest, s.unclaimed = page :: rest ∧ s' = { s with unclaimed := rest } := by
  unfold claim at h
  cases hc : s.isCancelled with
  | true => simp [hc] at h
  | false =>
    cases hu : s.unclaimed with
    | nil => simp [hc, hu] at h
    | cons first rest =>
      simp only [hc, hu, Bool.false_eq_true, if_false, Option.some.injEq, Prod.mk.injEq] at h
      obtain ⟨rfl, rfl⟩ := h
      exact ⟨rfl, rest, rfl, rfl⟩

theorem claim_eq_none (h : s.claim = none) (hc : s.isCancelled = false) : s.unclaimed = [] := by
  unfold claim at h
  cases hu : s.unclaimed with
  | nil => rfl
  | cons first rest => simp [hc, hu] at h

theorem receive_eq_some (h : s.receive = some s') :
    s.isDone = false ∧ ∃ a rest, s.sent = a :: rest ∧ s' = keep { s with sent := rest } a := by
  unfold receive at h
  cases hd : s.isDone with
  | true => simp [hd] at h
  | false =>
    cases hs : s.sent with
    | nil => simp [hd, hs] at h
    | cons a rest =>
      simp only [hd, hs, Bool.false_eq_true, if_false, Option.some.injEq] at h
      exact ⟨rfl, a, rest, rfl, h.symm⟩

theorem isWaiting_eq_true (h : s.isWaiting) :
    s.hasFailed = false ∧ ∃ index, s.order[s.position]? = some index ∧ s.early.find? (·.index = index) = none := by
  unfold isWaiting at h
  cases hi : s.order[s.position]? with
  | none => simp [hi] at h
  | some index =>
    simp only [hi, Bool.and_eq_true, Bool.not_eq_true', Option.isNone_iff_eq_none] at h
    exact ⟨h.1, index, rfl, h.2⟩

theorem next_of_find {index : Nat} {a : Arrival} (hf : s.hasFailed = false) (hi : s.order[s.position]? = some index)
    (ha : s.early.find? (·.index = index) = some a) :
    (∀ ir, a.result = .ok ir → s.next = (some (.ok (index, ir)),
      { s with early := s.early.filter (·.index ≠ index), position := s.position + 1 })) ∧
    ∀ e, a.result = .error e → s.next = (some (.error e), stop
      { s with early := s.early.filter (·.index ≠ index), position := s.position + 1, hasFailed := true }) := by
  have hawait : s.await index = (some a.result, { s with early := s.early.filter (·.index ≠ index) }) := by
    unfold await
    rw [ha]
  constructor
  · intro ir hr
    simp only [next, hf, hi, hawait, hr, Bool.false_eq_true, if_false]
  · intro e hr
    simp only [next, hf, hi, hawait, hr, Bool.false_eq_true, if_false]

theorem next_cases (h : ¬ s.isWaiting ∨ s.sent = []) :
    ((s.hasFailed = true ∨ s.order[s.position]? = none) ∧ s.next = (none, s)) ∨
    (s.isWaiting ∧ s.next = (none, { s with isDone := true })) ∨
    ∃ index a, s.hasFailed = false ∧ s.order[s.position]? = some index ∧ s.early.find? (·.index = index) = some a ∧
      ((∃ ir, a.result = .ok ir ∧ s.next = (some (.ok (index, ir)),
          { s with early := s.early.filter (·.index ≠ index), position := s.position + 1 })) ∨
        ∃ e, a.result = .error e ∧ s.next = (some (.error e), stop
          { s with early := s.early.filter (·.index ≠ index), position := s.position + 1, hasFailed := true })) := by
  cases hf : s.hasFailed with
  | true => exact .inl ⟨.inl rfl, by simp [next, hf]⟩
  | false =>
    cases hi : s.order[s.position]? with
    | none => exact .inl ⟨.inr rfl, by simp [next, hf, hi]⟩
    | some index =>
      right
      cases ha : s.early.find? (·.index = index) with
      | none =>
        have hw : s.isWaiting = true := by simp [isWaiting, hf, hi, ha]
        have hr : s.receive = none := by
          have hs : s.sent = [] := h.resolve_left (not_not_intro hw)
          simp [receive, hs]
        have hawait : s.await index = (none, { s with isDone := true }) := by
          unfold await
          rw [ha]
          dsimp only
          split
          · simp_all
          · rfl
        exact .inl ⟨hw, by simp [next, hf, hi, hawait]⟩
      | some a =>
        obtain ⟨hok, herror⟩ := next_of_find hf hi ha
        refine .inr ⟨index, a, rfl, rfl, ha, ?_⟩
        cases hresult : a.result with
        | ok ir => exact .inl ⟨ir, rfl, by simp only [hok ir hresult, hf]⟩
        | error e => exact .inr ⟨e, rfl, by simp only [herror e hresult]⟩

end PageStream

end DisplayList
