import DdsBenchmark.Listener.Exclusion

/-! Who owns which event. Every allocated address belongs to exactly one of the list, the thread
and one caller, the list is a chain from `oldest` to `latest`, and what has been called, what is
in hand and what is in the list are together what was asked for, in its order. -/

namespace DdsBenchmark.Listener

open Memory

variable {P ι Fn Status Arg : Type}

/-- What the thread holds of the event in its local variable: the pointer it has just read, the
event it took, or the event it has called. -/
inductive Hold (ι : Type) where
  | nothing
  | loaded (ev : ι)
  | full (ev : ι)
  | spent (ev : ι)

def ThreadAt.hold : ThreadAt ι → Hold ι
  | .loaded ev => .loaded ev
  | .taken ev | .calling ev => .full ev
  | .called ev => .spent ev
  | _ => .nothing

/-- What a caller holds: an event of its own, or one in the list that `latest` does not show. -/
inductive Share (ι Fn Status Arg : Type) where
  | nothing
  | own (ev : ι) (r : ListenerCall Fn Status Arg)
  | chained (ev : ι)

def CallAt.share : CallAt ι Fn Status Arg → Share ι Fn Status Arg
  | .created ev r | .locked ev r => .own ev r
  | .chained ev => .chained ev
  | _ => .nothing

@[simp] theorem hold_signal (pc : ThreadAt ι) : pc.signal.hold = pc.hold := by
  cases pc <;> rfl

inductive Owner (P : Type) where
  | queue
  | thread
  | caller (p : P)

/-- The queue `q` of addresses with what was asked for there, the listener call `hand` that the
thread is about to make, and the owner of each address. -/
structure Owned (s : State P ι Fn Status Arg) (q : List (ι × ListenerCall Fn Status Arg))
    (hand : List (ListenerCall Fn Status Arg)) (owner : ι → Option (Owner P)) : Prop where
  chain : Chain s.heap s.oldest (q.map fun x => (x.1, x.2.event))
  history : s.made ++ hand ++ q.map Prod.snd = s.requested
  loaded : ∀ ev, s.thread.hold = .loaded ev → s.oldest = some ev
  full : ∀ ev, s.thread.hold = .full ev → ∃ r n, hand = [r] ∧ s.heap ev = some ⟨r.event, n⟩
  empty : (∀ ev, s.thread.hold ≠ .full ev) → hand = []
  own : ∀ p ev r, (s.callers p).share = .own ev r → ∃ n, s.heap ev = some ⟨r.event, n⟩
  latest : (∀ p ev, (s.callers p).share ≠ .chained ev) → ∀ x ∈ q.getLast?, s.latest = some x.1
  chained : ∀ p ev, (s.callers p).share = .chained ev → ∃ x ∈ q.getLast?, x.1 = ev
  free : ∀ a, owner a = none ↔ s.heap a = none
  queue : ∀ a, owner a = some .queue ↔ a ∈ addresses q
  thread : ∀ a, owner a = some .thread ↔ s.thread.hold = .full a ∨ s.thread.hold = .spent a
  caller : ∀ p a, owner a = some (.caller p) ↔ ∃ r, (s.callers p).share = .own a r

section

variable {s t : State P ι Fn Status Arg} {q : List (ι × ListenerCall Fn Status Arg)}
  {hand : List (ListenerCall Fn Status Arg)} {owner : ι → Option (Owner P)}

/-- Moves that leave the list, the heap and what the parties hold. -/
theorem Owned.congr (h : Owned s q hand owner) (hheap : t.heap = s.heap)
    (holdest : t.oldest = s.oldest) (hlatest : t.latest = s.latest)
    (hrequested : t.requested = s.requested) (hmade : t.made = s.made)
    (hthread : t.thread.hold = s.thread.hold)
    (hcallers : ∀ p, (t.callers p).share = (s.callers p).share) : Owned t q hand owner := by
  obtain ⟨chain, history, loaded, full, empty, own, latest, chained, free, queue, thread,
    caller⟩ := h
  constructor <;> simpa only [hheap, holdest, hlatest, hrequested, hmade, hthread, hcallers]

theorem Owned.hand_eq_nil (h : Owned s q hand owner) {pc : ThreadAt ι} (hpc : s.thread = pc)
    (hnot : ∀ ev, pc.hold ≠ .full ev) : hand = [] :=
  h.empty (hpc ▸ hnot)

/-- The thread reads `oldest`. -/
theorem Owned.load (h : Owned s q hand owner) {ev : ι} (hpc : s.thread = .test)
    (hold : s.oldest = some ev) : Owned { s with thread := .loaded ev } q hand owner := by
  have hhand := h.hand_eq_nil hpc (by simp [ThreadAt.hold])
  refine { h with loaded := ?_, full := ?_, empty := fun _ => hhand, thread := ?_ }
  · rintro ev' ⟨⟩
    exact hold
  · rintro ev' ⟨⟩
  · intro a
    rw [h.thread a, hpc]
    simp [ThreadAt.hold]

theorem Owned.fst_eq_of_oldest (h : Owned s q hand owner) {ev : ι} (hold : s.oldest = some ev) :
    ∃ r n rest, q = (ev, r) :: rest ∧ s.heap ev = some ⟨r.event, n⟩ ∧
      Chain s.heap n (rest.map fun x => (x.1, x.2.event)) := by
  obtain ⟨v, n, rest, hq, hcell, hrest⟩ := chain_some_iff.mp (hold ▸ h.chain)
  obtain ⟨x, q', rfl, hx, rfl⟩ := List.map_eq_cons_iff.mp hq
  cases hx
  exact ⟨x.2, n, q', rfl, hcell, hrest⟩

theorem Owned.eq_nil_of_empty (h : Owned s q hand owner) (hempty : s.oldest = none) : q = [] := by
  have hchain := h.chain
  rw [hempty, chain_none_iff] at hchain
  exact List.map_eq_nil_iff.mp hchain

theorem addresses_map_event (q : List (ι × ListenerCall Fn Status Arg)) :
    addresses (q.map fun x => (x.1, x.2.event)) = addresses q := by
  simp [addresses, Function.comp_def]

theorem Owned.nodup (h : Owned s q hand owner) : (addresses q).Nodup := by
  rw [← addresses_map_event]
  exact h.chain.nodup

/-- The thread calls the listener of the event it took. -/
theorem Owned.call (h : Owned s q hand owner) {ev : ι} {c : Cell ι (Event Fn Status Arg)}
    {r : ListenerCall Fn Status Arg} (hpc : s.thread = .calling ev) (hcell : s.heap ev = some c)
    (hcall : c.value.dispatch = some r) :
    Owned { s with made := s.made ++ [r], thread := .called ev } q [] owner := by
  obtain ⟨r', n, rfl, hev⟩ := h.full ev (by rw [hpc]; rfl)
  have hc : c = ⟨r'.event, n⟩ := Option.some.inj (hcell.symm.trans hev)
  have hr : r' = r := by
    rw [hc, dispatch_event] at hcall
    exact Option.some.inj hcall
  refine { h with history := ?_, loaded := ?_, full := ?_, empty := fun _ => rfl, thread := ?_ }
  · simpa [hr] using h.history
  · rintro ev' ⟨⟩
  · rintro ev' ⟨⟩
  · intro a
    rw [h.thread a, hpc]
    simp [ThreadAt.hold]

variable [DecidableEq ι]

/-- The thread takes the oldest event, while no caller is about to set `latest`. -/
theorem Owned.take (h : Owned s q hand owner) {ev : ι} {c : Cell ι (Event Fn Status Arg)}
    (hpc : s.thread = .loaded ev) (hcell : s.heap ev = some c)
    (hno : ∀ p ev, (s.callers p).share ≠ .chained ev) :
    ∃ r rest, q = (ev, r) :: rest ∧
      Owned { s with oldest := c.next, thread := .taken ev } rest [r]
        (Function.update owner ev (some .thread)) := by
  have hhand := h.hand_eq_nil hpc (by simp [ThreadAt.hold])
  obtain ⟨r, n, rest, rfl, hev, hrest⟩ := h.fst_eq_of_oldest (h.loaded ev (by rw [hpc]; rfl))
  have hc : c = ⟨r.event, n⟩ := Option.some.inj (hcell.symm.trans hev)
  have hev_rest : ev ∉ addresses rest := (List.nodup_cons.mp h.nodup).1
  have howner : owner ev = some .queue := (h.queue ev).mpr List.mem_cons_self
  refine ⟨r, rest, rfl, ?_⟩
  constructor
  case chain => exact hc ▸ hrest
  case history => simpa [hhand] using h.history
  case loaded => rintro ev' ⟨⟩
  case full =>
    rintro ev' ⟨⟩
    exact ⟨r, n, rfl, hev⟩
  case empty => exact fun hnot => absurd rfl (hnot ev)
  case own => exact h.own
  case latest =>
    intro hlast x hx
    apply h.latest hlast
    cases rest with
    | nil => cases hx
    | cons y ys => simpa using hx
  case chained => exact fun p ev' hp => absurd hp (hno p ev')
  case free =>
    intro a
    have hfree := h.free a
    grind
  case queue =>
    intro a
    have hqueue := h.queue a
    grind [addresses_cons]
  case thread =>
    intro a
    have hthread := h.thread a
    grind [ThreadAt.hold]
  case caller =>
    intro p a
    have hcaller := h.caller p a
    grind

/-- The thread frees the event it called; the address is nobody's from then on. -/
theorem Owned.release (h : Owned s q hand owner) {ev : ι} (hpc : s.thread = .called ev) :
    Owned { s.store ev none with thread := .freed } q hand (Function.update owner ev none) := by
  have hhand := h.hand_eq_nil hpc (by simp [ThreadAt.hold])
  have howner : owner ev = some .thread := (h.thread ev).mpr (.inr (by rw [hpc]; rfl))
  have hother : ∀ {a}, owner a ≠ some .thread → Function.update s.heap ev none a = s.heap a := by
    intro a ha
    apply Function.update_of_ne
    rintro rfl
    exact ha howner
  constructor
  case chain =>
    apply h.chain.congr
    intro a ha
    rw [addresses_map_event] at ha
    exact hother (by simp [(h.queue a).mpr ha])
  case history => exact h.history
  case loaded => rintro ev' ⟨⟩
  case full => rintro ev' ⟨⟩
  case empty => exact fun _ => hhand
  case own =>
    intro p a r hp
    obtain ⟨n, hn⟩ := h.own p a r hp
    exact ⟨n, (hother (by simp [(h.caller p a).mpr ⟨r, hp⟩])).trans hn⟩
  case latest => exact h.latest
  case chained => exact h.chained
  case free =>
    intro a
    have hfree := h.free a
    show _ ↔ Function.update s.heap ev none a = none
    grind [Function.update_apply]
  case queue =>
    intro a
    have hqueue := h.queue a
    grind
  case thread =>
    intro a
    have hthread := h.thread a
    grind [ThreadAt.hold]
  case caller =>
    intro p a
    have hcaller := h.caller p a
    grind [State.store]

variable [DecidableEq P]

omit [DecidableEq ι] in
/-- What the callers hold when one of them has moved. -/
theorem share_update (f : P → CallAt ι Fn Status Arg) (p : P) (pc : CallAt ι Fn Status Arg)
    (p' : P) : (Function.update f p pc p').share = if p' = p then pc.share else (f p').share := by
  by_cases hp : p' = p
  · subst hp
    simp
  · simp [hp]

omit [DecidableEq ι] in
theorem share_update_of_eq {f : P → CallAt ι Fn Status Arg} {p : P} {pc : CallAt ι Fn Status Arg}
    (h : pc.share = (f p).share) (p' : P) :
    (Function.update f p pc p').share = (f p').share := by
  rw [share_update]
  split
  · rename_i hp
    rw [hp, h]
  · rfl

/-- A caller allocates its event, at an address nobody owns. -/
theorem Owned.create (h : Owned s q hand owner) {p : P} {ev : ι} (r : ListenerCall Fn Status Arg)
    (hpc : s.callers p = .idle) (hfree : s.heap ev = none) :
    Owned ((s.store ev (some ⟨r.event, none⟩)).moveCaller p (.created ev r)) q hand
      (Function.update owner ev (some (.caller p))) := by
  have howner : owner ev = none := (h.free ev).mpr hfree
  have hidle : (s.callers p).share = .nothing := by rw [hpc]; rfl
  have hother : ∀ {a}, owner a ≠ none →
      Function.update s.heap ev (some ⟨r.event, none⟩) a = s.heap a := by
    intro a ha
    apply Function.update_of_ne
    rintro rfl
    exact ha howner
  have hshare : ∀ p', ((State.moveCaller (s.store ev (some ⟨r.event, none⟩)) p
      (.created ev r)).callers p').share =
        if p' = p then .own ev r else (s.callers p').share := share_update s.callers p _
  constructor
  case chain =>
    apply h.chain.congr
    intro a ha
    rw [addresses_map_event] at ha
    exact hother (by simp [(h.queue a).mpr ha])
  case history => exact h.history
  case loaded => exact h.loaded
  case full =>
    intro a ha
    obtain ⟨r', n, hr, hn⟩ := h.full a ha
    exact ⟨r', n, hr, (hother (by simp [(h.thread a).mpr (.inl ha)])).trans hn⟩
  case empty => exact h.empty
  case own =>
    intro p' a r' hp
    rw [hshare] at hp
    split at hp
    · cases hp
      exact ⟨none, Function.update_self ..⟩
    · obtain ⟨n, hn⟩ := h.own p' a r' hp
      exact ⟨n, (hother (by simp [(h.caller p' a).mpr ⟨r', hp⟩])).trans hn⟩
  case latest =>
    intro hnot
    apply h.latest
    intro p' a
    have hp := hnot p' a
    grind
  case chained =>
    intro p' a hp
    apply h.chained p' a
    grind
  case free =>
    intro a
    have hfree' := h.free a
    show _ ↔ Function.update s.heap ev _ a = none
    grind [Function.update_apply]
  case queue =>
    intro a
    have hqueue := h.queue a
    grind
  case thread =>
    intro a
    have hthread := h.thread a
    show _ ↔ s.thread.hold = _ ∨ s.thread.hold = _
    grind
  case caller =>
    intro p' a
    have hcaller := h.caller p' a
    have hp := h.caller p a
    grind

/-- A caller hangs its event behind the list, whichever pointer it redirects to it. -/
theorem Owned.link (h : Owned s q hand owner) {p : P} {ev : ι} {r : ListenerCall Fn Status Arg}
    (hpc : s.callers p = .locked ev r) (hno : ∀ p ev, (s.callers p).share ≠ .chained ev)
    (hcallers : t.callers = Function.update s.callers p (.chained ev))
    (hthread : t.thread = s.thread) (hmade : t.made = s.made)
    (hrequested : t.requested = s.requested ++ [r])
    (hkeep : ∀ x, s.oldest = some x → t.oldest = some x)
    (hchain : Chain t.heap t.oldest ((q ++ [(ev, r)]).map fun x => (x.1, x.2.event)))
    (hout : ∀ a, a ≠ ev → a ∉ addresses q → t.heap a = s.heap a)
    (halive : ∀ a, t.heap a = none ↔ s.heap a = none) :
    Owned t (q ++ [(ev, r)]) hand (Function.update owner ev (some .queue)) := by
  have hown : (s.callers p).share = .own ev r := by rw [hpc]; rfl
  have howner : owner ev = some (.caller p) := (h.caller p ev).mpr ⟨r, hown⟩
  have hshare : ∀ p', (t.callers p').share =
      if p' = p then .chained ev else (s.callers p').share := by
    rw [hcallers]
    exact share_update s.callers p _
  have hheap : ∀ {a}, owner a ≠ some .queue → a ≠ ev → t.heap a = s.heap a := by
    intro a ha hne
    exact hout a hne fun hmem => ha ((h.queue a).mpr hmem)
  constructor
  case chain => exact hchain
  case history =>
    rw [hmade, hrequested, ← h.history]
    simp
  case loaded =>
    intro a ha
    exact hkeep a (h.loaded a (hthread ▸ ha))
  case full =>
    intro a ha
    rw [hthread] at ha
    obtain ⟨r', n, hr, hn⟩ := h.full a ha
    have ha' := (h.thread a).mpr (.inl ha)
    refine ⟨r', n, hr, (hheap (by simp [ha']) ?_).trans hn⟩
    rintro rfl
    simp [howner] at ha'
  case empty => exact fun hnot => h.empty (hthread ▸ hnot)
  case own =>
    intro p' a r' hp
    rw [hshare] at hp
    split at hp
    · cases hp
    · rename_i hne
      obtain ⟨n, hn⟩ := h.own p' a r' hp
      have ha' := (h.caller p' a).mpr ⟨r', hp⟩
      refine ⟨n, (hheap (by simp [ha']) ?_).trans hn⟩
      rintro rfl
      simp only [howner, Option.some.injEq, Owner.caller.injEq] at ha'
      exact hne ha'.symm
  case latest => exact fun hnot => absurd (hshare p) (by simpa using hnot p ev)
  case chained =>
    intro p' a hp
    rw [hshare] at hp
    split at hp
    · cases hp
      exact ⟨(ev, r), by simp⟩
    · exact absurd hp (hno p' a)
  case free =>
    intro a
    have hfree := h.free a
    rw [halive]
    grind [Function.update_apply]
  case queue =>
    intro a
    have hqueue := h.queue a
    rw [addresses_append]
    grind [addresses_cons, addresses_nil]
  case thread =>
    intro a
    have hthread' := h.thread a
    rw [hthread]
    grind
  case caller =>
    intro p' a
    have hcaller := h.caller p' a
    have hp := h.caller p a
    grind

omit [DecidableEq ι] in
/-- A caller lets `latest` show the event it has hung behind the list. -/
theorem Owned.setLatest (h : Owned s q hand owner) {p : P} {ev : ι}
    (hpc : s.callers p = .chained ev) :
    Owned { s.moveCaller p .linked with latest := some ev } q hand owner := by
  have hp : (s.callers p).share = .chained ev := by rw [hpc]; rfl
  have hshare : ∀ p', ((s.moveCaller p .linked).callers p').share =
      if p' = p then .nothing else (s.callers p').share := share_update s.callers p _
  obtain ⟨x, hx, rfl⟩ := h.chained p ev hp
  constructor
  case chain => exact h.chain
  case history => exact h.history
  case loaded => exact h.loaded
  case full => exact h.full
  case empty => exact h.empty
  case own =>
    intro p' a r' hp'
    apply h.own p' a r'
    grind
  case latest =>
    intro _ y hy
    rw [Option.mem_unique hy hx]
  case chained =>
    intro p' a hp'
    apply h.chained p' a
    grind
  case free => exact h.free
  case queue => exact h.queue
  case thread => exact h.thread
  case caller =>
    intro p' a
    have hcaller := h.caller p' a
    grind

omit [DecidableEq ι] [DecidableEq P] in
/-- Nobody but the party inside can be between hanging an event and setting `latest`. -/
theorem Exclusive.share_ne_chained (hx : Exclusive s) {who : Party P} (hin : s.Inside who)
    (hwho : ∀ p ev, who = .caller p → (s.callers p).share ≠ .chained ev) (p : P) (ev : ι) :
    (s.callers p).share ≠ .chained ev := by
  intro hp
  have hinside : s.Inside (.caller p) := by
    show (s.callers p).Inside
    revert hp
    cases s.callers p <;> simp [CallAt.share, CallAt.Inside]
  exact hwho p ev (hx.eq_of_inside hin hinside) hp

omit [DecidableEq ι] [DecidableEq P] in
theorem Exclusive.not_chained_of_loaded (hx : Exclusive s) {a : ι} (hpc : s.thread = .loaded a)
    (p : P) (ev : ι) : (s.callers p).share ≠ .chained ev := by
  have hin : s.Inside .thread := by
    show s.thread.Inside
    rw [hpc]
    trivial
  apply hx.share_ne_chained hin
  rintro _ _ ⟨⟩

omit [DecidableEq ι] [DecidableEq P] in
theorem Exclusive.not_chained_of_locked (hx : Exclusive s) {p : P} {a : ι}
    {r : ListenerCall Fn Status Arg} (hpc : s.callers p = .locked a r) (p' : P) (ev : ι) :
    (s.callers p').share ≠ .chained ev := by
  have hin : s.Inside (.caller p) := by
    show (s.callers p).Inside
    rw [hpc]
    trivial
  apply hx.share_ne_chained hin
  rintro _ ev' ⟨⟩
  rw [hpc]
  rintro ⟨⟩

/-- The first event of an empty list. -/
theorem Owned.linkFirst (h : Owned s q hand owner) (hx : Exclusive s) {p : P} {ev : ι}
    {r : ListenerCall Fn Status Arg} {c : Cell ι (Event Fn Status Arg)}
    (hpc : s.callers p = .locked ev r) (hcell : s.heap ev = some c) (hempty : s.oldest = none) :
    Owned { (s.store ev (some { c with next := none })).moveCaller p (.chained ev) with
      oldest := some ev, requested := s.requested ++ [r] } [(ev, r)] hand
      (Function.update owner ev (some .queue)) := by
  have hq := h.eq_nil_of_empty hempty
  obtain ⟨n, hn⟩ := h.own p ev r (by rw [hpc]; rfl)
  have hc : c = ⟨r.event, n⟩ := Option.some.inj (hcell.symm.trans hn)
  subst hq hc
  refine h.link hpc (hx.not_chained_of_locked hpc) rfl rfl rfl rfl ?_ ?_ ?_ ?_
  · intro x hx
    rw [hempty] at hx
    cases hx
  · exact chain_single (Function.update_self ..)
  · intro a ha _
    exact Function.update_of_ne ha ..
  · intro a
    show Function.update s.heap ev _ a = none ↔ _
    grind [Function.update_apply]

/-- An event behind the one that `latest` shows. -/
theorem Owned.linkBehind (h : Owned s q hand owner) (hx : Exclusive s) {p : P}
    {ev first last : ι} {r : ListenerCall Fn Status Arg} {c d : Cell ι (Event Fn Status Arg)}
    (hpc : s.callers p = .locked ev r) (hcell : s.heap ev = some c)
    (hold : s.oldest = some first) (hlatest : s.latest = some last)
    (hlast : (s.store ev (some { c with next := none })).heap last = some d) :
    Owned { ((s.store ev (some { c with next := none })).store last
        (some { d with next := some ev })).moveCaller p (.chained ev) with
      requested := s.requested ++ [r] } (q ++ [(ev, r)]) hand
      (Function.update owner ev (some .queue)) := by
  obtain ⟨n, hn⟩ := h.own p ev r (by rw [hpc]; rfl)
  have hc : c = ⟨r.event, n⟩ := Option.some.inj (hcell.symm.trans hn)
  have howner : owner ev = some (.caller p) := (h.caller p ev).mpr ⟨r, by rw [hpc]; rfl⟩
  have hev : ev ∉ addresses q := by
    intro hmem
    have hqueue := (h.queue ev).mpr hmem
    simp [howner] at hqueue
  have hno := hx.not_chained_of_locked hpc
  -- the list is not empty, so `latest` shows its last event
  obtain ⟨r', n', rest, hq, -⟩ := h.fst_eq_of_oldest hold
  obtain ⟨init, x, hqx⟩ : ∃ init x, q = init ++ [x] := by
    rcases List.eq_nil_or_concat q with hnil | hconcat
    · simp [hnil] at hq
    · simpa using hconcat
  have hx1 : x.1 = last := by
    have hshown := h.latest hno x (by simp [hqx])
    rw [hlatest] at hshown
    exact (Option.some.inj hshown).symm
  subst hc hx1
  have hxev : x.1 ≠ ev := by
    rintro rfl
    exact hev (by simp [hqx])
  have hchain : Chain (s.store ev (some ⟨r.event, none⟩)).heap s.oldest
      (init.map (fun x => (x.1, x.2.event)) ++ [(x.1, x.2.event)]) := by
    have hchain' := h.chain.update (by rwa [addresses_map_event]) (some ⟨r.event, none⟩)
    rwa [hqx, List.map_append] at hchain'
  obtain ⟨m, hm⟩ := hchain.cell_of_mem (List.mem_append_right _ List.mem_cons_self)
  have hd : d = ⟨x.2.event, m⟩ := Option.some.inj (hlast.symm.trans hm)
  subst hd
  refine h.link hpc hno rfl rfl rfl rfl (fun _ h => h) ?_ ?_ ?_
  · have hung := hchain.hang (chain_single (Function.update_self ..)) (by simpa using hxev)
    simpa [hqx, State.store, State.moveCaller] using hung
  · intro a ha hmem
    have hax : a ≠ x.1 := by
      rintro rfl
      exact hmem (by simp [hqx])
    exact (Function.update_of_ne hax ..).trans (Function.update_of_ne ha ..)
  · intro a
    have hsome : s.heap x.1 = some ⟨x.2.event, m⟩ :=
      (Function.update_of_ne hxev ..).symm.trans hlast
    show Function.update (Function.update s.heap ev _) x.1 _ a = none ↔ _
    grind [Function.update_apply]

end

end DdsBenchmark.Listener
