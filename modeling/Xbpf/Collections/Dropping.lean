import Xbpf.Collections.RingBuf
import Xbpf.Runs.Trace

/-!
# Dropping the ring buffer reader

Dropping a `RingBuf` sets the stop flag, closes the channel and joins the reader
thread, which looks at the flag between polls only. A poll returns when there is no
record left in the ring, and the callback never asks it to return earlier, not even
when it finds the channel closed. So the thread stops promptly if no record is there
any more once the callback has found the channel closed, and otherwise goes on as long
as the ring does not run empty.
-/

namespace Xbpf

namespace Collections

open Channels BoundedChannel Runs

def Action.isReader : Action → Bool
  | openRing _ | checkStop | deliver | returnFromPoll | trySend | fetchAdd | storeStop => true
  | _ => false

def Action.stopAfter (stop : Bool) : Action → Bool
  | dropStop | storeStop => true
  | _ => stop

def Action.ownerAfter (owner : Owner) : Action → Owner
  | dropStop => .stopStored
  | dropClose => .closed
  | dropJoin => .joined
  | _ => owner

def Action.closedAfter (closed : Bool) : Action → Bool
  | dropClose => true
  | _ => closed

namespace RingBuf

variable {κ ε V : Type*} [BoundedChannel κ Record] {tryFrom : Record → Except ε V}
  {s s' t u : RingBuf κ ε V} {a : Action} {as before after : List Action} {c : ℕ}

/-- A step of a run in which a poll returns only if the ring is empty. -/
def PollStep (tryFrom : Record → Except ε V) (s : RingBuf κ ε V) (a : Action)
    (s' : RingBuf κ ε V) : Prop :=
  s.next tryFrom a = some s' ∧ (a = .returnFromPoll → s.committed = [])

theorem PollStep.eq (h : PollStep tryFrom s a t) (h' : PollStep tryFrom s a u) : t = u :=
  Option.some_inj.mp (h.1.symm.trans h'.1)

def FindsClosed (s : RingBuf κ ε V) : Prop :=
  ∃ r, s.reader = .sending r ∧ BoundedChannel.trySend s.rx r = .error .closed

theorem next_flags (hlen : BoundedChannel.len s.rx ≤ BoundedChannel.capacity s.rx)
    (h : s.next tryFrom a = some s') :
    s'.stop = a.stopAfter s.stop ∧ s'.owner = a.ownerAfter s.owner ∧
      isClosed s'.rx = a.closedAfter (isClosed s.rx) := by
  cases a with
  | commit r =>
      cases h
      exact ⟨rfl, rfl, rfl⟩
  | deliver =>
      rw [next] at h
      split at h
      · cases h
        exact ⟨rfl, rfl, rfl⟩
      · cases h
  | trySend =>
      obtain ⟨_, _, ⟨_, hsend, rfl⟩ | ⟨_, rfl⟩ | ⟨_, rfl⟩⟩ := next_trySend h
      · exact ⟨rfl, rfl, (of_trySend_eq_ok hlen hsend).2.2.1⟩
      · exact ⟨rfl, rfl, rfl⟩
      · exact ⟨rfl, rfl, rfl⟩
  | receive how =>
      obtain ⟨_, ⟨_, _, hrecv, rfl⟩ | rfl⟩ := next_receive h
      · exact ⟨rfl, rfl, (of_tryRecv_eq_some hrecv).2.2⟩
      · exact ⟨rfl, rfl, rfl⟩
  | dropClose =>
      simp only [next, Option.ite_none_right_eq_some, Option.some_inj] at h
      obtain ⟨_, rfl⟩ := h
      exact ⟨rfl, rfl, isClosed_close s.rx⟩
  | _ =>
      simp only [next, Option.ite_none_right_eq_some, Option.some_inj] at h
      obtain ⟨_, rfl⟩ := h
      exact ⟨rfl, rfl, rfl⟩

/-- The callback sets the stop flag only if it has found the channel closed. -/
theorem storingStop_of_next (hlen : BoundedChannel.len s.rx ≤ BoundedChannel.capacity s.rx)
    (h : s.next tryFrom a = some s') (hreader : s'.reader = .storingStop) :
    s.reader = .storingStop ∨ isClosed s.rx = true := by
  cases a with
  | commit r =>
      cases h
      exact .inl hreader
  | deliver =>
      rw [next] at h
      split at h
      · cases h
        cases hreader
      · cases h
  | trySend =>
      obtain ⟨_, _, ⟨_, _, rfl⟩ | ⟨_, rfl⟩ | ⟨hsend, rfl⟩⟩ := next_trySend h
      · cases hreader
      · cases hreader
      · exact .inr (of_trySend_eq_closed hlen hsend)
  | receive how =>
      obtain ⟨_, ⟨_, _, _, rfl⟩ | rfl⟩ := next_receive h <;> exact .inl hreader
  | dropStop | dropClose | dropJoin =>
      simp only [next, Option.ite_none_right_eq_some, Option.some_inj] at h
      obtain ⟨_, rfl⟩ := h
      exact .inl hreader
  | openRing ok =>
      simp only [next, Option.ite_none_right_eq_some, Option.some_inj] at h
      obtain ⟨_, rfl⟩ := h
      cases ok <;> cases hreader
  | checkStop =>
      simp only [next, Option.ite_none_right_eq_some, Option.some_inj] at h
      obtain ⟨_, rfl⟩ := h
      cases hstop : s.stop <;> simp [hstop] at hreader
  | _ =>
      simp only [next, Option.ite_none_right_eq_some, Option.some_inj] at h
      obtain ⟨_, rfl⟩ := h
      cases hreader

/-- How far the owner is says whether the channel is closed and the flag is set. -/
structure Staged (s : RingBuf κ ε V) : Prop where
  isOpen : s.owner = .alive ∨ s.owner = .stopStored →
    isClosed s.rx = false ∧ s.reader ≠ .storingStop
  shut : s.owner = .closed ∨ s.owner = .joined → isClosed s.rx = true
  stop : s.owner ≠ .alive → s.stop = true

def Kept (tryFrom : Record → Except ε V) (c : ℕ) (s : RingBuf κ ε V) : Prop :=
  s.Inv tryFrom c ∧ s.Staged

theorem Staged.open_step (h : s.Staged)
    (hlen : BoundedChannel.len s.rx ≤ BoundedChannel.capacity s.rx)
    (hstep : s.next tryFrom a = some s')
    (hsame : isClosed s'.rx = isClosed s.rx) (hopen : s.owner = .alive ∨ s.owner = .stopStored) :
    isClosed s'.rx = false ∧ s'.reader ≠ .storingStop := by
  obtain ⟨hclosed, hreader⟩ := h.isOpen hopen
  refine ⟨hsame.trans hclosed, fun heq => ?_⟩
  rcases storingStop_of_next hlen hstep heq with hs | hs
  · exact hreader hs
  · cases hclosed.symm.trans hs

theorem Staged.step (h : s.Staged)
    (hlen : BoundedChannel.len s.rx ≤ BoundedChannel.capacity s.rx)
    (hstep : s.next tryFrom a = some s') : s'.Staged := by
  obtain ⟨hstop, howner, hclosed⟩ := next_flags hlen hstep
  have hsame (howner : s'.owner = s.owner) (hclosed : isClosed s'.rx = isClosed s.rx)
      (hstop : s.stop = true → s'.stop = true) : s'.Staged :=
    ⟨fun hnot => h.open_step hlen hstep hclosed (howner ▸ hnot),
      fun hyes => hclosed.trans (h.shut (howner ▸ hyes)),
      fun hnot => hstop (h.stop (howner ▸ hnot))⟩
  cases a with
  | dropStop =>
      have halive := hstep
      simp only [next, Option.ite_none_right_eq_some] at halive
      refine ⟨fun _ => h.open_step hlen hstep hclosed (.inl halive.1), fun hyes => ?_,
        fun _ => hstop⟩
      rcases hyes with hyes | hyes <;> cases howner.symm.trans hyes
  | dropClose =>
      simp only [next, Option.ite_none_right_eq_some] at hstep
      refine ⟨fun hnot => ?_, fun _ => hclosed, fun _ => hstop.trans (h.stop (by simp [hstep.1]))⟩
      rcases hnot with hnot | hnot <;> cases howner.symm.trans hnot
  | dropJoin =>
      simp only [next, Option.ite_none_right_eq_some] at hstep
      refine ⟨fun hnot => ?_, fun _ => hclosed.trans (h.shut (.inl hstep.1.1)),
        fun _ => hstop.trans (h.stop (by simp [hstep.1.1]))⟩
      rcases hnot with hnot | hnot <;> cases howner.symm.trans hnot
  | storeStop => exact hsame howner hclosed fun _ => hstop
  | _ => exact hsame howner hclosed fun hs => hstop.trans hs

theorem Kept.step (h : s.Kept tryFrom c) (hstep : PollStep tryFrom s a s') :
    s'.Kept tryFrom c :=
  ⟨h.1.step ⟨a, hstep.1⟩, h.2.step h.1.len_le hstep.1⟩

theorem Kept.of_new {mapType : MapType} {committed : List Record}
    (h : new mapType c committed = .ok s) : s.Kept tryFrom c := by
  refine ⟨(Inv.of_new h).2, ?_⟩
  rw [new] at h
  split at h
  · cases h
  · split at h
    · cases h
    · cases h
      exact ⟨fun _ => ⟨isClosed_channel c, by simp⟩, by simp, fun hnot => absurd rfl hnot⟩

theorem Kept.trace (h : s.Kept tryFrom c) (hrun : Trace (PollStep tryFrom) s as u) :
    u.Kept tryFrom c :=
  hrun.invariant (fun _ _ _ h hstep => h.step hstep) h

def Closed (s : RingBuf κ ε V) : Prop :=
  s.owner = .closed ∨ s.owner = .joined

theorem Closed.step (h : s.Closed) (hk : s.Kept tryFrom c) (hstep : PollStep tryFrom s a s') :
    s'.Closed := by
  obtain ⟨_, howner, _⟩ := next_flags hk.1.len_le hstep.1
  cases a with
  | dropStop =>
      have hnot := hstep.1
      simp only [next, Option.ite_none_right_eq_some] at hnot
      rcases h with h | h <;> cases hnot.1.symm.trans h
  | dropClose => exact .inl howner
  | dropJoin => exact .inr howner
  | _ =>
      have hsame : s'.owner = s.owner := howner
      rwa [Closed, hsame]

theorem Kept.closed (h : s.Kept tryFrom c) (hclosed : isClosed s.rx = true) : s.Closed := by
  cases howner : s.owner with
  | alive => cases hclosed.symm.trans (h.2.isOpen (.inl howner)).1
  | stopStored => cases hclosed.symm.trans (h.2.isOpen (.inr howner)).1
  | closed => exact .inl howner
  | joined => exact .inr howner

theorem Kept.stop_of_closed (h : s.Kept tryFrom c) (hclosed : s.Closed) : s.stop = true :=
  h.2.stop fun halive => by rcases hclosed with hc | hc <;> cases halive.symm.trans hc

theorem FindsClosed.closed (h : s.FindsClosed) (hk : s.Kept tryFrom c) : s.Closed := by
  obtain ⟨_, _, hsend⟩ := h
  exact hk.closed (of_trySend_eq_closed hk.1.len_le hsend)

/-- What a step does once the channel is closed. -/
inductive ClosedStep (s : RingBuf κ ε V) : Action → RingBuf κ ε V → Prop
  | other {b : Action} {t : RingBuf κ ε V} (hb : b.isReader = false)
      (hreader : t.reader = s.reader)
      (hcommitted : (∃ r, b = .commit r ∧ t.committed = s.committed ++ [r]) ∨
        (∀ r, b ≠ .commit r) ∧ t.committed = s.committed) : ClosedStep s b t
  | openRing {ok : Bool} {t : RingBuf κ ε V} (hfrom : s.reader = .opening)
      (hreader : t.reader = .checkingStop ∨ t.reader = .exited) : ClosedStep s (.openRing ok) t
  | checkStop {t : RingBuf κ ε V} (hfrom : s.reader = .checkingStop)
      (hreader : t.reader = .exited) : ClosedStep s .checkStop t
  | deliver {t : RingBuf κ ε V} (r : Record) (hfrom : s.reader = .polling)
      (hcommitted : s.committed ≠ []) (hreader : t.reader = .sending r) :
      ClosedStep s .deliver t
  | returnFromPoll {t : RingBuf κ ε V} (hfrom : s.reader = .polling)
      (hcommitted : s.committed = []) (hreader : t.reader = .checkingStop) :
      ClosedStep s .returnFromPoll t
  | trySend {t : RingBuf κ ε V} (r : Record) (hfrom : s.reader = .sending r)
      (hfound : s.FindsClosed) (hreader : t.reader = .storingStop)
      (hcommitted : t.committed = s.committed) : ClosedStep s .trySend t
  | fetchAdd {t : RingBuf κ ε V} (hfrom : s.reader = .countingDropped)
      (hreader : t.reader = .polling) : ClosedStep s .fetchAdd t
  | storeStop {t : RingBuf κ ε V} (hfrom : s.reader = .storingStop)
      (hreader : t.reader = .polling) (hcommitted : t.committed = s.committed) :
      ClosedStep s .storeStop t

theorem PollStep.closedStep (hk : s.Kept tryFrom c) (hc : s.Closed)
    (h : PollStep tryFrom s a s') : ClosedStep s a s' := by
  obtain ⟨hstep, hpoll⟩ := h
  have hclosed : isClosed s.rx = true := hk.2.shut hc
  cases a with
  | commit r =>
      cases hstep
      exact .other rfl rfl (.inl ⟨r, rfl, rfl⟩)
  | deliver =>
      rw [next] at hstep
      split at hstep
      · rename_i hfrom hcommitted
        cases hstep
        exact .deliver _ hfrom (by simp [hcommitted]) rfl
      · cases hstep
  | trySend =>
      obtain ⟨r, hfrom, hcases⟩ := next_trySend hstep
      have hsend := trySend_closed s.rx r hclosed
      rcases hcases with ⟨_, hok, _⟩ | ⟨hfull, _⟩ | ⟨_, rfl⟩
      · cases hsend.symm.trans hok
      · cases hsend.symm.trans hfull
      · exact .trySend r hfrom ⟨r, hfrom, hsend⟩ rfl rfl
  | receive how =>
      obtain ⟨halive, _⟩ := next_receive hstep
      rcases hc with hc | hc <;> cases halive.symm.trans hc
  | openRing ok =>
      simp only [next, Option.ite_none_right_eq_some, Option.some_inj] at hstep
      obtain ⟨hfrom, rfl⟩ := hstep
      refine .openRing hfrom ?_
      cases ok
      · exact .inr rfl
      · exact .inl rfl
  | checkStop =>
      simp only [next, Option.ite_none_right_eq_some, Option.some_inj] at hstep
      obtain ⟨hfrom, rfl⟩ := hstep
      exact .checkStop hfrom (by simp [hk.stop_of_closed hc])
  | returnFromPoll =>
      simp only [next, Option.ite_none_right_eq_some, Option.some_inj] at hstep
      obtain ⟨hfrom, rfl⟩ := hstep
      exact .returnFromPoll hfrom (hpoll rfl) rfl
  | fetchAdd =>
      simp only [next, Option.ite_none_right_eq_some, Option.some_inj] at hstep
      obtain ⟨hfrom, rfl⟩ := hstep
      exact .fetchAdd hfrom rfl
  | storeStop =>
      simp only [next, Option.ite_none_right_eq_some, Option.some_inj] at hstep
      obtain ⟨hfrom, rfl⟩ := hstep
      exact .storeStop hfrom rfl rfl
  | dropStop | dropClose | dropJoin =>
      simp only [next, Option.ite_none_right_eq_some, Option.some_inj] at hstep
      obtain ⟨_, rfl⟩ := hstep
      exact .other rfl rfl (.inr ⟨by simp, rfl⟩)

theorem PollStep.found (hk : s.Kept tryFrom c) (hc : s.Closed)
    (h : PollStep tryFrom s .trySend s') :
    s'.reader = .storingStop ∧ s'.committed = s.committed := by
  cases h.closedStep hk hc with
  | trySend _ _ _ hreader hcommitted => exact ⟨hreader, hcommitted⟩
  | other ha => cases ha

/-- No record is left in the ring, and none is committed before the poll returns. -/
def Emptied (s : RingBuf κ ε V) (as : List Action) : Prop :=
  s.committed = [] ∧ ∀ r, .commit r ∉ as.takeWhile (· ≠ .returnFromPoll)

/-- Whenever the callback finds the channel closed the ring holds no further record, and
none is committed before the poll returns. -/
def Quiet (tryFrom : Record → Except ε V) (s : RingBuf κ ε V) (as : List Action) : Prop :=
  ∀ before after t, as = before ++ .trySend :: after →
    Trace (PollStep tryFrom) s before t → t.FindsClosed → t.Emptied after

theorem Quiet.drop (h : Quiet tryFrom s (before ++ after))
    (hrun : Trace (PollStep tryFrom) s before t) : Quiet tryFrom t after := by
  rintro front back u rfl hfront hfound
  exact h (before ++ front) back u (by rw [List.append_assoc]) (hrun.append hfront) hfound

theorem Quiet.tail (h : Quiet tryFrom s (a :: as)) (hstep : PollStep tryFrom s a t) :
    Quiet tryFrom t as := by
  have happend : Quiet tryFrom s ([a] ++ as) := h
  exact happend.drop (.cons hstep (.nil t))

omit [BoundedChannel κ Record] in
theorem Emptied.tail (h : s.Emptied (a :: as)) (ha : a ≠ .returnFromPoll)
    (hcommitted : t.committed = s.committed) : t.Emptied as := by
  refine ⟨hcommitted.trans h.1, fun r hr => h.2 r ?_⟩
  rw [List.takeWhile_cons_of_pos (by simpa using ha)]
  exact List.mem_cons_of_mem _ hr

omit [BoundedChannel κ Record] in
theorem Emptied.cons (h : t.Emptied as) (ha : a ≠ .returnFromPoll) (hcommit : ∀ r, a ≠ .commit r)
    (hcommitted : t.committed = s.committed) : s.Emptied (a :: as) := by
  refine ⟨hcommitted.symm.trans h.1, fun r hr => ?_⟩
  rw [List.takeWhile_cons_of_pos (by simpa using ha)] at hr
  rcases List.mem_cons.mp hr with heq | hr
  · exact hcommit r heq.symm
  · exact h.2 r hr

/-- The callback is invoked at most `d` times, and the reader takes at most `n` steps. -/
def Brief (d n : ℕ) (as : List Action) : Prop :=
  as.count .deliver ≤ d ∧ as.countP Action.isReader ≤ n

namespace Brief

variable {d n d' n' : ℕ}

theorem cons (h : Brief d n as) (hd : d + [a].count .deliver ≤ d')
    (hn : n + [a].countP Action.isReader ≤ n') : Brief d' n' (a :: as) := by
  constructor
  · rw [← List.singleton_append, List.count_append, Nat.add_comm]
    exact Nat.le_trans (Nat.add_le_add_right h.1 _) hd
  · rw [← List.singleton_append, List.countP_append, Nat.add_comm]
    exact Nat.le_trans (Nat.add_le_add_right h.2 _) hn

theorem mono (h : Brief d n as) (hd : d ≤ d') (hn : n ≤ n') : Brief d' n' as :=
  ⟨Nat.le_trans h.1 hd, Nat.le_trans h.2 hn⟩

end Brief

/-- What is known of a reader whose callback has found the channel closed, or has not
yet. -/
def Stage (found : Bool) (s : RingBuf κ ε V) (as : List Action) : Prop :=
  match s.reader with
  | .storingStop => found = true ∧ s.Emptied as
  | .polling => found = true → s.Emptied as
  | .sending _ | .countingDropped | .opening => found = false
  | .checkingStop | .exited => True

def mayDeliver (found : Bool) : Reader → ℕ
  | .polling => if found then 0 else 1
  | .countingDropped => 1
  | _ => 0

def mayStep (found : Bool) : Reader → ℕ
  | .exited => 0
  | .checkingStop => 1
  | .opening => 2
  | .storingStop => 3
  | .sending _ => 4
  | .polling => if found then 2 else 5
  | .countingDropped => 6

omit [BoundedChannel κ Record] in
/-- A stage is kept by what the reader does not do itself. -/
theorem Stage.other {found : Bool} (h : s.Stage found (a :: as)) (ha : a.isReader = false)
    (hreader : t.reader = s.reader)
    (hcommitted : (∃ r, a = .commit r ∧ t.committed = s.committed ++ [r]) ∨
      (∀ r, a ≠ .commit r) ∧ t.committed = s.committed) : t.Stage found as := by
  have hreturn : a ≠ .returnFromPoll := by
    rintro rfl
    cases ha
  have htail (hempty : s.Emptied (a :: as)) : t.Emptied as := by
    rcases hcommitted with ⟨r, rfl, _⟩ | ⟨_, hsame⟩
    · exact absurd (by simp) (hempty.2 r)
    · exact hempty.tail hreturn hsame
  unfold Stage at h ⊢
  rw [hreader]
  cases hfrom : s.reader with
  | polling =>
      rw [hfrom] at h
      exact fun hfound => htail (h hfound)
  | storingStop =>
      rw [hfrom] at h
      exact ⟨h.1, htail h.2⟩
  | _ =>
      rw [hfrom] at h
      exact h

/-- A step uses up what the reader may still do, if nothing is left for the callback to do
when it has found the channel closed. -/
theorem ClosedStep.stage {found : Bool} (h : ClosedStep s a t) (hstage : s.Stage found (a :: as))
    (hempty : a = .trySend → s.FindsClosed → s.Emptied as) :
    ∃ found', t.Stage found' as ∧
      mayDeliver found' t.reader + [a].count .deliver ≤ mayDeliver found s.reader ∧
      mayStep found' t.reader + [a].countP Action.isReader ≤ mayStep found s.reader := by
  cases h with
  | other ha hreader hcommitted =>
      refine ⟨found, hstage.other ha hreader hcommitted, ?_, ?_⟩
      · have hne : a ≠ .deliver := by
          rintro rfl
          cases ha
        simp [hreader, hne]
      · simp [hreader, ha]
  | openRing hfrom hreader =>
      refine ⟨found, ?_, ?_⟩
      · rw [Stage]
        rcases hreader with hreader | hreader <;> rw [hreader] <;> trivial
      · rw [hfrom]
        rcases hreader with hreader | hreader <;> rw [hreader]
        · exact ⟨Nat.le_refl 0, Nat.le_refl 2⟩
        · exact ⟨Nat.le_refl 0, Nat.le_succ 1⟩
  | checkStop hfrom hreader =>
      refine ⟨found, ?_, ?_⟩
      · rw [Stage, hreader]
        trivial
      · rw [hfrom, hreader]
        exact ⟨Nat.le_refl 0, Nat.le_refl 1⟩
  | deliver r hfrom hcommitted hreader =>
      rw [Stage, hfrom] at hstage
      cases found with
      | true => exact absurd (hstage rfl).1 hcommitted
      | false =>
          refine ⟨false, ?_, ?_⟩
          · rw [Stage, hreader]
          · rw [hfrom, hreader]
            exact ⟨Nat.le_refl 1, Nat.le_refl 5⟩
  | returnFromPoll hfrom hcommitted hreader =>
      refine ⟨found, ?_, ?_⟩
      · rw [Stage, hreader]
        trivial
      · rw [hfrom, hreader]
        cases found <;> decide
  | trySend r hfrom hfound hreader hcommitted =>
      obtain ⟨hnil, hnone⟩ := hempty rfl hfound
      refine ⟨true, ?_, ?_⟩
      · rw [Stage, hreader]
        exact ⟨rfl, hcommitted.trans hnil, hnone⟩
      · rw [hfrom, hreader]
        exact ⟨Nat.le_refl 0, Nat.le_refl 4⟩
  | fetchAdd hfrom hreader =>
      rw [Stage, hfrom] at hstage
      subst hstage
      refine ⟨false, ?_, ?_⟩
      · rw [Stage, hreader]
        simp
      · rw [hfrom, hreader]
        decide
  | storeStop hfrom hreader hcommitted =>
      rw [Stage, hfrom] at hstage
      obtain ⟨rfl, hemptied⟩ := hstage
      refine ⟨true, ?_, ?_⟩
      · rw [Stage, hreader]
        exact fun _ => hemptied.tail (by simp) hcommitted
      · rw [hfrom, hreader]
        decide

theorem brief_of_closed {found : Bool} (hrun : Trace (PollStep tryFrom) s as u)
    (hk : s.Kept tryFrom c) (hc : s.Closed) (hquiet : Quiet tryFrom s as)
    (hstage : s.Stage found as) :
    Brief (mayDeliver found s.reader) (mayStep found s.reader) as := by
  induction hrun generalizing found with
  | nil s => exact ⟨Nat.zero_le _, Nat.zero_le _⟩
  | @cons s a t as u hstep hrest ih =>
      have hempty (ha : a = .trySend) : s.FindsClosed → s.Emptied as :=
        hquiet [] as s (by rw [ha, List.nil_append]) (.nil s)
      obtain ⟨_, hnext, hdeliver, hsteps⟩ := (hstep.closedStep hk hc).stage hstage hempty
      have hbrief := ih (hk.step hstep) (hc.step hk hstep) (hquiet.tail hstep) hnext
      exact hbrief.cons hdeliver hsteps

/-- A poll that is left in the end after the callback has found the channel closed,
without another call of it, was not given another record. -/
theorem emptied_of_exited (hrun : Trace (PollStep tryFrom) s as u) (hk : s.Kept tryFrom c)
    (hc : s.Closed) (hexited : u.reader = .exited) (hsilent : .deliver ∉ as)
    (hreader : s.reader = .storingStop ∨ s.reader = .polling) : s.Emptied as := by
  induction hrun with
  | nil s => rcases hreader with hreader | hreader <;> cases hexited.symm.trans hreader
  | @cons s a t as u hstep hrest ih =>
      have hkt := hk.step hstep
      have hct := hc.step hk hstep
      have htail : .deliver ∉ as := fun hmem => hsilent (List.mem_cons_of_mem _ hmem)
      cases hstep.closedStep hk hc with
      | other ha hsame hcommitted =>
          have hempty := ih hkt hct hexited htail (by rwa [hsame])
          have hreturn : a ≠ .returnFromPoll := by
            rintro rfl
            cases ha
          rcases hcommitted with ⟨r, _, hcommitted⟩ | ⟨hcommit, hcommitted⟩
          · have hnil := hcommitted.symm.trans hempty.1
            exact absurd hnil (by simp)
          · exact hempty.cons hreturn hcommit hcommitted
      | deliver => exact absurd List.mem_cons_self hsilent
      | returnFromPoll hfrom hcommitted _ => exact ⟨hcommitted, by simp⟩
      | storeStop hfrom hnext hcommitted =>
          exact (ih hkt hct hexited htail (.inr hnext)).cons (by simp) (by simp) hcommitted
      | openRing hfrom | checkStop hfrom | trySend _ hfrom | fetchAdd hfrom =>
          rcases hreader with hreader | hreader <;> cases hfrom.symm.trans hreader

/-- The reader has a step to take until it exits, and then the owner can join it. -/
theorem exists_step (tryFrom : Record → Except ε V) (s : RingBuf κ ε V) :
    (∃ a t, a.isReader = true ∧ PollStep tryFrom s a t) ∨
      s.reader = .exited ∧ (s.owner = .closed → ∃ t, PollStep tryFrom s .dropJoin t) := by
  cases hreader : s.reader with
  | opening => exact .inl ⟨.openRing true, _, rfl, if_pos hreader, by simp⟩
  | checkingStop => exact .inl ⟨.checkStop, _, rfl, if_pos hreader, by simp⟩
  | polling =>
      cases hcommitted : s.committed with
      | nil => exact .inl ⟨.returnFromPoll, _, rfl, if_pos hreader, fun _ => hcommitted⟩
      | cons r rest =>
          have hnext : ∃ t, s.next tryFrom .deliver = some t := by
            simp only [next, hreader, hcommitted]
            exact ⟨_, rfl⟩
          obtain ⟨t, ht⟩ := hnext
          exact .inl ⟨.deliver, t, rfl, ht, by simp⟩
  | sending r =>
      have hnext : ∃ t, s.next tryFrom .trySend = some t := by
        simp only [next, hreader]
        cases BoundedChannel.trySend s.rx r with
        | ok rx => exact ⟨_, rfl⟩
        | error why => cases why <;> exact ⟨_, rfl⟩
      obtain ⟨t, ht⟩ := hnext
      exact .inl ⟨.trySend, t, rfl, ht, by simp⟩
  | countingDropped => exact .inl ⟨.fetchAdd, _, rfl, if_pos hreader, by simp⟩
  | storingStop => exact .inl ⟨.storeStop, _, rfl, if_pos hreader, by simp⟩
  | exited =>
      exact .inr ⟨rfl, fun howner => ⟨_, if_pos ⟨howner, hreader⟩, by simp⟩⟩

theorem stop_of_trace (hrun : Trace (PollStep tryFrom) s as u) (hk : s.Kept tryFrom c)
    (hstop : s.stop = true ∨ .dropStop ∈ as ∨ .storeStop ∈ as) : u.stop = true := by
  induction hrun with
  | nil s => simpa using hstop
  | @cons s a t as u hstep hrest ih =>
      refine ih (hk.step hstep) ?_
      have hflag := (next_flags hk.1.len_le hstep.1).1
      rcases hstop with hstop | hmem | hmem
      · left
        rw [hflag, hstop]
        cases a <;> rfl
      · rcases List.mem_cons.mp hmem with rfl | hmem
        · exact .inl hflag
        · exact .inr (.inl hmem)
      · rcases List.mem_cons.mp hmem with rfl | hmem
        · exact .inl hflag
        · exact .inr (.inr hmem)

/-- The callback is invoked at most once after the channel was closed. -/
theorem brief_of_dropClose (hrun : Trace (PollStep tryFrom) s (.dropClose :: as) u)
    (hk : s.Kept tryFrom c) (hquiet : Quiet tryFrom s (.dropClose :: as)) : Brief 1 6 as := by
  cases hrun with
  | @cons s a t as u hstep hrest =>
      have howner : s.owner = .stopStored := by
        have h := hstep.1
        simp only [next, Option.ite_none_right_eq_some] at h
        exact h.1
      have hreader : t.reader ≠ .storingStop := by
        have h := hstep.1
        simp only [next, if_pos howner, Option.some_inj] at h
        subst h
        exact (hk.2.isOpen (.inr howner)).2
      have hclosed : t.Closed := .inl (next_flags hk.1.len_le hstep.1).2.1
      have hstage : t.Stage false as := by
        unfold Stage
        split <;> simp_all
      have hbrief := brief_of_closed hrest (hk.step hstep) hclosed (hquiet.tail hstep) hstage
      refine hbrief.mono ?_ ?_ <;> cases t.reader <;> simp [mayDeliver, mayStep]

/-- The callback is not invoked again once it has found the channel closed. -/
theorem silent_of_quiet (hrun : Trace (PollStep tryFrom) s (.trySend :: as) u)
    (hk : s.Kept tryFrom c) (hfound : s.FindsClosed)
    (hquiet : Quiet tryFrom s (.trySend :: as)) : .deliver ∉ as := by
  obtain ⟨hempty, hnone⟩ := hquiet [] as s rfl (.nil s) hfound
  cases hrun with
  | @cons s a t as u hstep hrest =>
      have hc := hfound.closed hk
      obtain ⟨hreader, hcommitted⟩ := hstep.found hk hc
      have hstage : t.Stage true as := by
        rw [Stage, hreader]
        exact ⟨rfl, hcommitted.trans hempty, hnone⟩
      have hbrief := brief_of_closed hrest (hk.step hstep) (hc.step hk hstep)
        (hquiet.tail hstep) hstage
      rw [hreader] at hbrief
      exact List.count_eq_zero.mp (Nat.le_zero.mp hbrief.1)

/-- If it is not, and the reader exits, then nothing was left for it to do. -/
theorem emptied_of_silent (hrun : Trace (PollStep tryFrom) s (.trySend :: as) u)
    (hk : s.Kept tryFrom c) (hfound : s.FindsClosed) (hexited : u.reader = .exited)
    (hsilent : .deliver ∉ as) : s.Emptied as := by
  cases hrun with
  | cons hstep hrest =>
      have hc := hfound.closed hk
      obtain ⟨hreader, hcommitted⟩ := hstep.found hk hc
      obtain ⟨hempty, hnone⟩ := emptied_of_exited hrest (hk.step hstep) (hc.step hk hstep)
        hexited hsilent (.inl hreader)
      exact ⟨hcommitted.symm.trans hempty, hnone⟩

/-- Dropping a `RingBuf` stops the reader: the callback is not invoked again once it has
found the channel closed, no poll is started once the flag is set, the callback is
invoked at most once after the channel was closed, and the reader has only a few steps
left then, of which it can take the next one until it has exited and can be joined. -/
structure StopsReader (tryFrom : Record → Except ε V) (s : RingBuf κ ε V) (as : List Action) :
    Prop where
  silent : ∀ before after t, as = before ++ .trySend :: after →
    Trace (PollStep tryFrom) s before t → t.FindsClosed → .deliver ∉ after
  polls : ∀ before after t t', as = before ++ .checkStop :: after →
    Trace (PollStep tryFrom) s before t → PollStep tryFrom t .checkStop t' →
    .dropStop ∈ before ∨ .storeStop ∈ before → t'.reader = .exited
  invocations : ∀ before after, as = before ++ .dropClose :: after → after.count .deliver ≤ 1
  exits : ∀ before after t, as = before ++ .dropClose :: after →
    Trace (PollStep tryFrom) s as t →
    after.countP Action.isReader ≤ 6 ∧
      ((∃ a t', a.isReader = true ∧ PollStep tryFrom t a t') ∨
        t.reader = .exited ∧ (t.owner = .closed → ∃ t', PollStep tryFrom t .dropJoin t'))

/-- In every run in which no record is left when the callback has found the channel
closed, and none arrives before the poll returns, dropping the `RingBuf` stops the
reader. In a run in which the reader has exited it is only then that it does. -/
theorem stopsReader_of_quiet {mapType : MapType} {committed : List Record}
    (hnew : new mapType c committed = .ok s) (hrun : Trace (PollStep tryFrom) s as u) :
    (Quiet tryFrom s as → StopsReader tryFrom s as) ∧
      (u.reader = .exited → StopsReader tryFrom s as → Quiet tryFrom s as) := by
  have hk : s.Kept tryFrom c := Kept.of_new hnew
  have hrest {before after : List Action} {t : RingBuf κ ε V}
      (hrun : Trace (PollStep tryFrom) s (before ++ after) u)
      (hbefore : Trace (PollStep tryFrom) s before t) : Trace (PollStep tryFrom) t after u :=
    hrun.of_append (fun _ _ _ _ h h' => h.eq h') hbefore
  constructor
  · intro hquiet
    have hbrief {before after : List Action} (heq : as = before ++ .dropClose :: after) :
        Brief 1 6 after := by
      subst heq
      obtain ⟨t, hbefore, hafter⟩ := hrun.split
      exact brief_of_dropClose hafter (hk.trace hbefore) (hquiet.drop hbefore)
    constructor
    · rintro before after t rfl hbefore hfound
      exact silent_of_quiet (hrest hrun hbefore) (hk.trace hbefore) hfound (hquiet.drop hbefore)
    · rintro before after t t' rfl hbefore hstep hset
      have hstop := stop_of_trace hbefore hk (.inr hset)
      have h := hstep.1
      simp only [next, Option.ite_none_right_eq_some, Option.some_inj] at h
      obtain ⟨_, rfl⟩ := h
      simp [hstop]
    · exact fun before after heq => (hbrief heq).1
    · exact fun before after t heq _ => ⟨(hbrief heq).2, exists_step tryFrom t⟩
  · rintro hexited hstops before after t rfl hbefore hfound
    exact emptied_of_silent (hrest hrun hbefore) (hk.trace hbefore) hfound hexited
      (hstops.silent before after t rfl hbefore hfound)

section Runs

/-- The reader of an empty ring buffer, decoding a record as its length. -/
def idle : RingBuf (Queue Record) Unit ℕ where
  rx := channel 1
  dropped := 0
  stop := false
  reader := .opening
  owner := .alive
  committed := []
  delivered := []
  discarded := []
  handedOut := []
  results := []

/-- One record arrives before the reader is dropped and none later. -/
theorem stopsReader_lastRecord : ∃ u : RingBuf (Queue Record) Unit ℕ,
    u.owner = .joined ∧
    Trace (PollStep fun r => .ok r.length) idle
      ([.openRing true, .checkStop, .commit [7], .dropStop, .dropClose, .deliver] ++
        .trySend :: [.storeStop, .returnFromPoll, .checkStop, .dropJoin]) u ∧
    StopsReader (fun r => .ok r.length) idle
      ([.openRing true, .checkStop, .commit [7], .dropStop, .dropClose, .deliver] ++
        .trySend :: [.storeStop, .returnFromPoll, .checkStop, .dropJoin]) := by
  have hrun : ∃ t u : RingBuf (Queue Record) Unit ℕ, u.owner = .joined ∧ t.committed = [] ∧
      Trace (PollStep fun r => .ok r.length) idle
        [.openRing true, .checkStop, .commit [7], .dropStop, .dropClose, .deliver] t ∧
      Trace (PollStep fun r => .ok r.length) t
        (.trySend :: [.storeStop, .returnFromPoll, .checkStop, .dropJoin]) u :=
    ⟨_, _, rfl, rfl,
      .cons ⟨rfl, by simp⟩ <| .cons ⟨rfl, by simp⟩ <| .cons ⟨rfl, by simp⟩ <|
        .cons ⟨rfl, by simp⟩ <| .cons ⟨rfl, by simp⟩ <| .cons ⟨rfl, by simp⟩ <| .nil _,
      .cons ⟨rfl, by simp⟩ <| .cons ⟨rfl, by simp⟩ <| .cons ⟨rfl, fun _ => rfl⟩ <|
        .cons ⟨rfl, by simp⟩ <| .cons ⟨rfl, by simp⟩ <| .nil _⟩
  obtain ⟨t, u, howner, hempty, hfront, hback⟩ := hrun
  have hall := hfront.append hback
  have hnew : new (ε := Unit) (V := ℕ) .ringBuf 1 [] = .ok idle := rfl
  refine ⟨u, howner, hall, (stopsReader_of_quiet hnew hall).1 ?_⟩
  intro before after t' heq hbefore _
  obtain ⟨rfl, _, rfl⟩ :=
    (List.append_cons_inj_of_notMem (by decide) (by decide)).mp heq
  obtain rfl := hfront.eq_of_deterministic (fun _ _ _ _ h h' => h.eq h') hbefore
  exact ⟨hempty, by simp⟩

/-- Two records arrive in the poll in which the channel is closed, and the callback is
invoked for both. -/
theorem not_stopsReader_busy : ∃ u : RingBuf (Queue Record) Unit ℕ,
    Trace (PollStep fun r => .ok r.length) idle
      ([.openRing true, .checkStop, .dropStop] ++ .dropClose :: [.commit [0], .deliver,
        .trySend, .storeStop, .commit [1], .deliver]) u ∧
    ¬ StopsReader (fun r => .ok r.length) idle
      ([.openRing true, .checkStop, .dropStop] ++ .dropClose :: [.commit [0], .deliver,
        .trySend, .storeStop, .commit [1], .deliver]) := by
  refine ⟨_, .cons ⟨rfl, by simp⟩ <| .cons ⟨rfl, by simp⟩ <| .cons ⟨rfl, by simp⟩ <|
    .cons ⟨rfl, by simp⟩ <| .cons ⟨rfl, by simp⟩ <| .cons ⟨rfl, by simp⟩ <|
    .cons ⟨rfl, by simp⟩ <| .cons ⟨rfl, by simp⟩ <| .cons ⟨rfl, by simp⟩ <|
    .cons ⟨rfl, by simp⟩ <| .nil _, fun hstops => ?_⟩
  have hcount := hstops.invocations _ _ rfl
  revert hcount
  decide

end Runs

end RingBuf

end Collections

end Xbpf
