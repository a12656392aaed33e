import DisplayList.Link
import Mathlib.Data.List.Basic

namespace DisplayList

namespace Link

variable {capacity : Nat} {c : Channel} {es : List Event} {e : Event} {l l' : Link} {m : Message} {r next : Receiver}
  {s : Sender}

def Event.accepted? : Event → Option Message
  | accepted m => some m
  | _ => none

def Event.received? : Event → Option Message
  | received m => some m
  | _ => none

def acceptedIn (es : List Event) : List Message := es.filterMap Event.accepted?

def receivedIn (es : List Event) : List Message := es.filterMap Event.received?

def Sender.unsent : Sender → Nat
  | announced _ | refused => 1
  | idle | released | gone => 0

def Sender.isBusy : Sender → Bool
  | announced _ | refused | released => true
  | idle | gone => false

def Receiver.uncounted : Receiver → Nat
  | taken _ => 1
  | idle | collecting _ | collected _ | gone => 0

def Receiver.isBusy : Receiver → Bool
  | collecting _ | taken _ | collected _ => true
  | idle | gone => false

section Events

variable (es : List Event)

theorem acceptedIn_concat (e : Event) : acceptedIn (es ++ [e]) = acceptedIn es ++ e.accepted?.toList := by
  cases h : e.accepted? <;> simp [acceptedIn, h]

theorem receivedIn_concat (e : Event) : receivedIn (es ++ [e]) = receivedIn es ++ e.received?.toList := by
  cases h : e.received? <;> simp [receivedIn, h]

end Events

@[simp]
theorem Receiver.uncounted_taken (next : Receiver) : (taken next).uncounted = 1 := rfl

theorem Receiver.of_after?_eq_some (h : r.after? m = some next) :
    r.uncounted = 0 ∧ next.uncounted = 0 ∧ r ≠ .gone ∧ next ≠ .gone := by
  cases r with
  | idle =>
    cases h
    simp [uncounted]
  | collecting s =>
    simp only [after?, Option.some.injEq] at h
    subst h
    split <;> simp [uncounted]
  | taken | collected | gone => cases h

/-- Whether there is a receiver, and who knows it. -/
structure Ends (l : Link) : Prop where
  hasReceiver : l.channel.hasReceiver ↔ l.receiver ≠ .gone
  taken : ∀ next, l.receiver = .taken next → next.uncounted = 0 ∧ next ≠ .gone
  refused : l.sender = .refused ∨ l.sender = .released → ¬ l.channel.hasReceiver
  cancelled : l.channel.isCancelled → ¬ l.channel.hasReceiver ∧ ¬ l.sender.isBusy

theorem Ends.move (h : Ends l) (move : Move l e l') : Ends l' := by
  obtain ⟨hthere, htaken, hrefused, hcancelled⟩ := h
  cases move with
  | announce m hopen => exact ⟨hthere, htaken, by simp, fun hc ↦ absurd hc hopen⟩
  | send hr => exact ⟨hthere, htaken, by simp, fun hc ↦ absurd hr (hcancelled hc).1⟩
  | refuse hr => exact ⟨hthere, htaken, fun _ ↦ hr, fun hc ↦ absurd rfl (hcancelled hc).2⟩
  | release => exact ⟨hthere, htaken, fun _ ↦ hrefused (.inl rfl), fun hc ↦ absurd rfl (hcancelled hc).2⟩
  | cancel => exact ⟨hthere, htaken, by simp, fun _ ↦ ⟨hrefused (.inr rfl), by simp [Sender.isBusy]⟩⟩
  | discard | leave => exact ⟨hthere, htaken, by simp, hcancelled⟩
  | take _ hr =>
    obtain ⟨-, hnext, hr, hthere'⟩ := Receiver.of_after?_eq_some hr
    exact ⟨by simp_all, by simp_all, hrefused, hcancelled⟩
  | count =>
    obtain ⟨hnext, hthere'⟩ := htaken _ rfl
    refine ⟨by simp_all [Channel.release], ?_, hrefused, hcancelled⟩
    rintro next rfl
    simp at hnext
  | miss | ask | giveUp => exact ⟨by simpa using hthere, by simp, hrefused, hcancelled⟩
  | close | drop =>
    exact ⟨by simp [Channel.dropReceiver], by simp, by simp [Channel.dropReceiver],
      fun hc ↦ ⟨by simp [Channel.dropReceiver], (hcancelled hc).2⟩⟩

def Counts (l : Link) : Prop :=
  ∃ lost, l.channel.inFlight = l.channel.queue.length + l.sender.unsent + l.receiver.uncounted + lost ∧
    (l.channel.hasReceiver → lost = 0)

theorem Counts.move (h : Counts l) (hends : Ends l) (move : Move l e l') : Counts l' := by
  obtain ⟨lost, hcount, hlost⟩ := h
  cases move with
  | announce =>
    refine ⟨lost, ?_, hlost⟩
    simp only [Channel.reserve, Sender.unsent] at hcount ⊢
    omega
  | send =>
    refine ⟨lost, ?_, hlost⟩
    simp only [Channel.send, Sender.unsent, List.length_append, List.length_singleton] at hcount ⊢
    omega
  | release =>
    refine ⟨lost, ?_, hlost⟩
    simp only [Channel.release, Sender.unsent] at hcount ⊢
    omega
  | take hq hr =>
    obtain ⟨hr, -⟩ := Receiver.of_after?_eq_some hr
    refine ⟨lost, ?_, hlost⟩
    simp only [Receiver.uncounted_taken, hq, hr, List.length_cons] at hcount ⊢
    omega
  | count =>
    obtain ⟨hnext, -⟩ := hends.taken _ rfl
    refine ⟨lost, ?_, hlost⟩
    simp only [Channel.release, Receiver.uncounted_taken, hnext] at hcount ⊢
    omega
  | refuse | cancel | discard | miss | ask | giveUp | leave => exact ⟨lost, hcount, hlost⟩
  | @close c | @drop c =>
    refine ⟨c.queue.length + lost, ?_, by simp [Channel.dropReceiver]⟩
    simp only [Channel.dropReceiver, Receiver.uncounted, List.length_nil] at hcount ⊢
    omega

/-- Messages are received as they were accepted, and none is lost as long as there is a receiver. -/
structure Keeps (es : List Event) (l : Link) : Prop where
  order : l.channel.hasReceiver → receivedIn es ++ l.channel.queue = acceptedIn es
  ended : ¬ l.channel.hasReceiver → l.channel.queue = [] ∧ receivedIn es <+: acceptedIn es

theorem Keeps.received_prefix (h : Keeps es l) : receivedIn es <+: acceptedIn es := by
  by_cases hr : l.channel.hasReceiver
  · exact ⟨_, h.order hr⟩
  · exact (h.ended hr).2

theorem Keeps.of_silent (h : Keeps es l) (ha : e.accepted? = none) (hr : e.received? = none)
    (hthere : l'.channel.hasReceiver = l.channel.hasReceiver) (hq : l'.channel.queue = l.channel.queue) :
    Keeps (es ++ [e]) l' := by
  constructor
  · simpa [acceptedIn_concat, receivedIn_concat, ha, hr, hthere, hq] using h.order
  · simpa [acceptedIn_concat, receivedIn_concat, ha, hr, hthere, hq] using h.ended

theorem Keeps.move (h : Keeps es l) (move : Move l e l') : Keeps (es ++ [e]) l' := by
  have hreceived := h.received_prefix
  cases move with
  | send hr =>
    refine ⟨fun _ ↦ ?_, fun hn ↦ absurd hr hn⟩
    simp [acceptedIn_concat, receivedIn_concat, Event.accepted?, Event.received?, Channel.send, ← h.order hr]
  | @take c s r next m rest hq _ =>
    have hr : c.hasReceiver := by
      by_contra hn
      cases (h.ended hn).1.symm.trans hq
    refine ⟨fun _ ↦ ?_, fun hn ↦ absurd hr hn⟩
    simp [acceptedIn_concat, receivedIn_concat, Event.accepted?, Event.received?, ← h.order hr, hq]
  | close | drop =>
    refine ⟨by simp [Channel.dropReceiver], fun _ ↦ ⟨rfl, ?_⟩⟩
    simpa [acceptedIn_concat, receivedIn_concat, Event.accepted?, Event.received?] using hreceived
  | announce | refuse | release | cancel | discard | count | miss | ask | giveUp | leave =>
    exact h.of_silent rfl rfl rfl rfl

theorem isCancelled_move (h : l.channel.isCancelled ↔ .cancelled ∈ es) (move : Move l e l') :
    l'.channel.isCancelled ↔ .cancelled ∈ es ++ [e] := by
  cases move with
  | cancel => simp [Channel.cancel]
  | _ => simpa [Channel.reserve, Channel.send, Channel.release, Channel.dropReceiver] using h

theorem capacity_move (move : Move l e l') : l'.channel.capacity = l.channel.capacity := by
  cases move <;> rfl

structure Sound (capacity : Nat) (es : List Event) (l : Link) : Prop where
  capacity : l.channel.capacity = max capacity 1
  ends : Ends l
  counts : Counts l
  keeps : Keeps es l
  isCancelled : l.channel.isCancelled ↔ .cancelled ∈ es

theorem Sound.move (h : Sound capacity es l) (move : Move l e l') : Sound capacity (es ++ [e]) l' where
  capacity := (capacity_move move).trans h.capacity
  ends := h.ends.move move
  counts := h.counts.move h.ends move
  keeps := h.keeps.move move
  isCancelled := isCancelled_move h.isCancelled move

theorem sound_create (capacity : Nat) : Sound capacity [] (create capacity) :=
  ⟨rfl, ⟨by simp [create, Channel.create], nofun, nofun, nofun⟩, ⟨0, rfl, fun _ ↦ rfl⟩, ⟨fun _ ↦ rfl, nofun⟩,
    by simp [create, Channel.create]⟩

theorem Sound.run (h : Sound capacity [] l) (run : Run l es l') : Sound capacity es l' := by
  induction run with
  | refl => exact h
  | tail _ move ih => exact ih.move move

theorem Ends.still (h : Ends l) (hc : l.channel.isCancelled) (move : Move l e l') :
    l'.channel = l.channel ∧ e.accepted? = none := by
  obtain ⟨hnobody, hidle⟩ := h.cancelled hc
  have hgone : l.receiver = .gone := by
    by_contra hne
    exact hnobody (h.hasReceiver.2 hne)
  cases move with
  | announce m hopen => exact absurd hc hopen
  | send | refuse | release | cancel => exact absurd rfl hidle
  | discard | leave => exact ⟨rfl, rfl⟩
  | take _ hr => exact absurd hgone (Receiver.of_after?_eq_some hr).2.2.1
  | count | miss | ask | giveUp | close | drop => cases hgone

theorem Counts.released (h : Counts l) (move : Move l .released l') :
    l.channel.inFlight = l'.channel.inFlight + 1 := by
  obtain ⟨lost, hcount, -⟩ := h
  cases move with
  | release =>
    simp only [Channel.release, Sender.unsent] at hcount ⊢
    omega
  | count =>
    simp only [Channel.release, Receiver.uncounted_taken] at hcount ⊢
    omega

section Lone

variable {l₁ l₂ : Link} {es₁ es₂ : List Event}

theorem Run.trans (run : Run l es₁ l₁) (run' : Run l₁ es₂ l₂) : Run l (es₁ ++ es₂) l₂ := by
  induction run' with
  | refl => simpa using run
  | tail _ move ih =>
    rw [← List.append_assoc]
    exact ih.tail move

theorem run_enqueue (c : Channel) (m : Message) (r : Receiver) :
    ∃ es, Run ⟨c, .idle, r⟩ es ⟨c.enqueue m, .idle, r⟩ := by
  rw [Channel.enqueue]
  split
  · rename_i hc
    exact ⟨_, Run.refl.tail (.discard m hc)⟩
  · rename_i hc
    have hannounced := Run.refl.tail (Move.announce (r := r) m hc)
    dsimp only
    split
    · rename_i hr
      exact ⟨_, hannounced.tail (.send hr)⟩
    · rename_i hr
      exact ⟨_, ((hannounced.tail (.refuse hr)).tail .release).tail .cancel⟩

theorem run_receive (c : Channel) (s : Sender) :
    ∃ es, Run ⟨c, s, .idle⟩ es ⟨c.receive.2, s, .idle⟩ ∧ receivedIn es = c.receive.1.toList := by
  rw [Channel.receive]
  split
  · rename_i hq
    exact ⟨_, Run.refl.tail (.miss hq), rfl⟩
  · rename_i m rest hq
    exact ⟨_, (Run.refl.tail (.take hq rfl)).tail .count, rfl⟩

theorem run_collecting (c : Channel) (t : Snapshot) :
    ∃ es c', Run ⟨c, .gone, .collecting t⟩ es ⟨c', .gone, .collected (Snapshot.collectFrom t c.queue)⟩ := by
  generalize hq : c.queue = ms
  induction ms generalizing c t with
  | nil => exact ⟨_, c, Run.refl.tail (.giveUp hq)⟩
  | cons m rest ih =>
    have htaken := (Run.refl.tail (Move.take (s := .gone) (r := .collecting t) hq rfl)).tail .count
    rw [Snapshot.collectFrom]
    split
    · rename_i hlast
      simp only [hlast] at htaken
      exact ⟨_, _, htaken⟩
    · rename_i hlast
      simp only [hlast] at htaken
      obtain ⟨es, c', hrest⟩ := ih (Channel.release { c with queue := rest }) (t.append m.chunk) rfl
      exact ⟨_, c', htaken.trans hrest⟩

theorem run_collect (c : Channel) :
    ∃ es c', Run ⟨c, .gone, .idle⟩ (es ++ [.collected (Snapshot.collect c.queue)]) ⟨c', .gone, .gone⟩ := by
  obtain ⟨es, c', hrun⟩ := run_collecting c {}
  exact ⟨_, _, ((Run.refl.tail .ask).trans hrun).tail .close⟩

end Lone

/-- What is certain of both ends after the given events. -/
structure Exact (capacity : Nat) (es : List Event) (l : Link) : Prop where
  received_prefix : receivedIn es <+: acceptedIn es
  order : l.receiver ≠ .gone → receivedIn es ++ l.channel.queue = acceptedIn es
  /-- Nothing is taken off a count that is zero. -/
  released : ∀ l', Move l .released l' → l.channel.inFlight = l'.channel.inFlight + 1
  length_le : l.receiver ≠ .gone → l.channel.queue.length ≤ l.channel.inFlight
  length_eq : l.receiver ≠ .gone → ¬ l.sender.isBusy → ¬ l.receiver.isBusy →
    l.channel.queue.length = l.channel.inFlight
  ready : l.channel.isReady → l.channel.queue.length < max capacity 1
  /-- Once the channel was cancelled it stays so, and whatever is sent later is not accepted and changes nothing. -/
  cancelled : .cancelled ∈ es → l.channel.isCancelled ∧ ¬ l.channel.isReady ∧
    ∀ e l', Move l e l' → l'.channel = l.channel ∧ ∀ m, e ≠ .accepted m

theorem counted_in_flight (run : Run (create capacity) es l) : Exact capacity es l := by
  obtain ⟨hcapacity, hends, hcounts, hkeeps, hcancelled⟩ := (sound_create capacity).run run
  obtain ⟨lost, hcount, hlost⟩ := id hcounts
  refine ⟨hkeeps.received_prefix, fun h ↦ hkeeps.order (hends.hasReceiver.2 h), fun l' ↦ hcounts.released, ?_, ?_, ?_,
    ?_⟩
  · intro _
    omega
  · intro h hs hr
    have hsender : l.sender.unsent = 0 := by cases hl : l.sender <;> simp_all [Sender.isBusy, Sender.unsent]
    have hreceiver : l.receiver.uncounted = 0 := by
      cases hl : l.receiver <;> simp_all [Receiver.isBusy, Receiver.uncounted]
    have := hlost (hends.hasReceiver.2 h)
    omega
  · intro hready
    simp only [Channel.isReady, Bool.and_eq_true, decide_eq_true_eq] at hready
    omega
  · intro hmem
    have hc := hcancelled.2 hmem
    refine ⟨hc, by simp [Channel.isReady, hc], fun e l' move ↦ ?_⟩
    obtain ⟨hchannel, haccepted⟩ := hends.still hc move
    refine ⟨hchannel, ?_⟩
    rintro m rfl
    cases haccepted

def blank (isLast : Bool) : Message := ⟨⟨{}, isLast, 0⟩, 1, []⟩

def crossed : List Event :=
  [.announced (blank false), .accepted (blank false), .announced (blank true), .received (blank false),
    .accepted (blank true), .released, .announced (blank false), .receiverLeft, .refused (blank false), .released,
    .cancelled, .discarded (blank true)]

theorem counted_in_flight_crossed : ∃ l, Run (create 0) crossed l ∧ Exact 0 crossed l ∧ l.channel.inFlight = 1 := by
  have h₀ := (Run.refl (l := create 0)).tail (.announce (blank false) (by decide)) |>.tail (.send rfl)
  have h₁ := h₀.tail (.announce (blank true) (by decide)) |>.tail (.take rfl rfl) |>.tail (.send rfl) |>.tail .count
  have h₂ := h₁.tail (.announce (blank false) (by decide)) |>.tail .drop |>.tail (.refuse (by decide))
  have h₃ := h₂.tail .release |>.tail .cancel |>.tail (.discard (blank true) rfl)
  exact ⟨_, h₃, counted_in_flight h₃, rfl⟩

end Link

end DisplayList
