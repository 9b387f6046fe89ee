import Xbpf.Channels.Bounded
import Xbpf.Collections.Error
import Xbpf.Runs.Machine

/-!
# The ring buffer reader

A `RingBuf` is shared by the eBPF program, which commits records, the reader
thread, which copies every record that libbpf delivers to its callback into a
bounded channel, and the owner, who receives the records from there or drops the
`RingBuf`. An `Action` is what one of them does in one indivisible step, so a run
is any interleaving of the three. Next to the state that the code has, a
`RingBuf` remembers the records that were delivered to the callback, those that
did not fit in the channel, and those that were handed out, with their results.
-/

namespace Xbpf

namespace Collections

open Channels BoundedChannel

abbrev Record := List UInt8

/-- The type of a map, by its name unless it is a ring buffer. -/
inductive MapType
  | ringBuf
  | other (name : String)
  deriving DecidableEq, Repr

def MapType.name : MapType → String
  | ringBuf => "RingBuf"
  | other name => name

/-- What the reader thread does next. -/
inductive Reader
  | opening
  | checkingStop
  | polling
  | sending (record : Record)
  | countingDropped
  | storingStop
  | exited
  deriving DecidableEq, Repr

/-- How far the owner is in dropping the `RingBuf`. -/
inductive Owner
  | alive
  | stopStored
  | closed
  | joined
  deriving DecidableEq, Repr

/-- A reader with its threads and its history. -/
structure RingBuf (κ ε V : Type*) where
  rx : κ
  dropped : UInt64
  stop : Bool
  reader : Reader
  owner : Owner
  committed : List Record
  delivered : List Record
  discarded : List Record
  handedOut : List Record
  results : List (Except ε V)

inductive Receive
  | recv
  | blockingRecv
  | tryRecv
  deriving DecidableEq, Repr

/-- A step of the eBPF program, of the reader thread or of the owner. -/
inductive Action
  | commit (record : Record)
  | openRing (ok : Bool)
  | checkStop
  | deliver
  | returnFromPoll
  | trySend
  | fetchAdd
  | storeStop
  | receive (how : Receive)
  | dropStop
  | dropClose
  | dropJoin
  deriving DecidableEq, Repr

namespace RingBuf

variable {κ ε V : Type*} [BoundedChannel κ Record]

/-- A reader for a map in which some records are committed already. Its thread is spawned:
if the system refuses to spawn one, `new` does nothing but pass the error on. -/
def new (mapType : MapType) (userspaceCapacity : ℕ) (committed : List Record) :
    Except Error (RingBuf κ ε V) :=
  if mapType ≠ .ringBuf then
    .error (invalidInput ("expected a ring buffer map, got " ++ mapType.name))
  else if userspaceCapacity = 0 then
    .error (invalidInput "userspace_capacity must not be zero")
  else
    .ok { rx := channel userspaceCapacity, dropped := 0, stop := false,
          reader := .opening, owner := .alive, committed, delivered := [],
          discarded := [], handedOut := [], results := [] }

section Receiving

variable (tryFrom : Record → Except ε V)

/-- Receives the next record. It waits while there is none, unless no more can
arrive. -/
def recv (rx : κ) (senderGone : Bool) : Option (Option (Except ε V) × κ) :=
  match BoundedChannel.tryRecv rx with
  | some (r, rx') => some (some (tryFrom r), rx')
  | none => if senderGone || isClosed rx then some (none, rx) else none

/-- Like `recv` on a thread of its own. -/
def blockingRecv (rx : κ) (senderGone : Bool) : Option (Option (Except ε V) × κ) :=
  recv tryFrom rx senderGone

def tryRecv (rx : κ) : Option (Except ε V) × κ :=
  match BoundedChannel.tryRecv rx with
  | some (r, rx') => (some (tryFrom r), rx')
  | none => (none, rx)

/-- A receiving call, absent while it waits. -/
def receive (how : Receive) (rx : κ) (senderGone : Bool) :
    Option (Option (Except ε V) × κ) :=
  match how with
  | .recv => recv tryFrom rx senderGone
  | .blockingRecv => blockingRecv tryFrom rx senderGone
  | .tryRecv => some (tryRecv tryFrom rx)

def taken (rx : κ) : List Record :=
  ((BoundedChannel.tryRecv rx).map Prod.fst).toList

/-- The state after an action, absent if the action is not possible. -/
def next (s : RingBuf κ ε V) : Action → Option (RingBuf κ ε V)
  | .commit r => some { s with committed := s.committed ++ [r] }
  | .openRing ok =>
      if s.reader = .opening then
        some { s with reader := if ok then .checkingStop else .exited }
      else none
  | .checkStop =>
      if s.reader = .checkingStop then
        some { s with reader := if s.stop then .exited else .polling }
      else none
  | .deliver =>
      match s.reader, s.committed with
      | .polling, r :: rest =>
          some { s with committed := rest, reader := .sending r,
                        delivered := s.delivered ++ [r] }
      | _, _ => none
  | .returnFromPoll =>
      if s.reader = .polling then some { s with reader := .checkingStop } else none
  | .trySend =>
      match s.reader with
      | .sending r =>
          match BoundedChannel.trySend s.rx r with
          | .ok rx => some { s with rx, reader := .polling }
          | .error .full =>
              some { s with reader := .countingDropped, discarded := s.discarded ++ [r] }
          | .error .closed => some { s with reader := .storingStop }
      | _ => none
  | .fetchAdd =>
      if s.reader = .countingDropped then
        some { s with dropped := s.dropped + 1, reader := .polling }
      else none
  | .storeStop =>
      if s.reader = .storingStop then some { s with stop := true, reader := .polling }
      else none
  | .receive how =>
      if s.owner = .alive then
        (receive tryFrom how s.rx (decide (s.reader = .exited))).map fun res =>
          { s with rx := res.2, results := s.results ++ res.1.toList,
                   handedOut := s.handedOut ++ taken s.rx }
      else none
  | .dropStop =>
      if s.owner = .alive then some { s with stop := true, owner := .stopStored }
      else none
  | .dropClose =>
      if s.owner = .stopStored then some { s with rx := close s.rx, owner := .closed }
      else none
  | .dropJoin =>
      if s.owner = .closed ∧ s.reader = .exited then some { s with owner := .joined }
      else none

def Step (s s' : RingBuf κ ε V) : Prop :=
  ∃ a, s.next tryFrom a = some s'

end Receiving

def len (s : RingBuf κ ε V) : ℕ :=
  BoundedChannel.len s.rx

theorem results_of_new {mapType : MapType} {c : ℕ} {committed : List Record}
    {s : RingBuf κ ε V} (h : new mapType c committed = .ok s) : s.results = [] := by
  rw [new] at h
  split at h
  · cases h
  · split at h
    · cases h
    · cases h
      rfl

section Inversion

variable {tryFrom : Record → Except ε V} {s s' : RingBuf κ ε V}

/-- The callback puts its record into the channel, discards it, or finds the
channel closed. -/
theorem next_trySend (h : s.next tryFrom .trySend = some s') :
    ∃ r, s.reader = .sending r ∧
      ((∃ rx, BoundedChannel.trySend s.rx r = .ok rx ∧
          s' = { s with rx, reader := .polling }) ∨
        (BoundedChannel.trySend s.rx r = .error .full ∧
          s' = { s with reader := .countingDropped, discarded := s.discarded ++ [r] }) ∨
        BoundedChannel.trySend s.rx r = .error .closed ∧
          s' = { s with reader := .storingStop }) := by
  rw [next] at h
  split at h
  · rename_i r hreader
    refine ⟨r, hreader, ?_⟩
    split at h
    · rename_i rx hsend
      exact Or.inl ⟨rx, hsend, (Option.some_inj.mp h).symm⟩
    · rename_i hsend
      exact Or.inr (Or.inl ⟨hsend, (Option.some_inj.mp h).symm⟩)
    · rename_i hsend
      exact Or.inr (Or.inr ⟨hsend, (Option.some_inj.mp h).symm⟩)
  · cases h

theorem next_receive {how : Receive} (h : s.next tryFrom (.receive how) = some s') :
    s.owner = .alive ∧
      ((∃ r rx, BoundedChannel.tryRecv s.rx = some (r, rx) ∧
          s' = { s with rx, results := s.results ++ [tryFrom r],
                        handedOut := s.handedOut ++ [r] }) ∨
        s' = s) := by
  simp only [next, Option.ite_none_right_eq_some] at h
  obtain ⟨halive, h⟩ := h
  refine ⟨halive, ?_⟩
  obtain ⟨res, hres, rfl⟩ := Option.map_eq_some_iff.mp h
  cases hrecv : BoundedChannel.tryRecv s.rx with
  | some rrx =>
      left
      refine ⟨rrx.1, rrx.2, rfl, ?_⟩
      cases how <;>
        simp only [receive, recv, blockingRecv, tryRecv, hrecv, Option.some_inj] at hres <;>
        subst hres <;> simp [taken, hrecv]
  | none =>
      right
      cases how <;>
        simp only [receive, recv, blockingRecv, tryRecv, hrecv, Option.some_inj,
          Option.ite_none_right_eq_some] at hres
      · obtain ⟨_, rfl⟩ := hres
        simp [taken, hrecv]
      · obtain ⟨_, rfl⟩ := hres
        simp [taken, hrecv]
      · subst hres
        simp [taken, hrecv]

theorem results_of_next {a : Action} (h : s.next tryFrom a = some s')
    (ha : ∀ how, a ≠ .receive how) : s'.results = s.results := by
  cases a with
  | receive how => exact absurd rfl (ha how)
  | commit r =>
      cases h
      rfl
  | deliver =>
      rw [next] at h
      split at h
      · cases h
        rfl
      · cases h
  | trySend =>
      obtain ⟨_, _, ⟨_, _, rfl⟩ | ⟨_, rfl⟩ | ⟨_, rfl⟩⟩ := next_trySend h <;> rfl
  | _ =>
      simp only [next, Option.ite_none_right_eq_some, Option.some_inj] at h
      obtain ⟨_, rfl⟩ := h
      rfl

/-- Records are only discarded by sending to a channel that is full. -/
theorem discarded_of_next {a : Action} (h : s.next tryFrom a = some s') :
    s'.discarded = s.discarded ∨
      ∃ r, BoundedChannel.trySend s.rx r = .error .full ∧
        s'.discarded = s.discarded ++ [r] := by
  cases a with
  | commit r =>
      cases h
      exact Or.inl rfl
  | deliver =>
      rw [next] at h
      split at h
      · cases h
        exact Or.inl rfl
      · cases h
  | trySend =>
      obtain ⟨r, _, ⟨_, _, rfl⟩ | ⟨hfull, rfl⟩ | ⟨_, rfl⟩⟩ := next_trySend h
      · exact Or.inl rfl
      · exact Or.inr ⟨r, hfull, rfl⟩
      · exact Or.inl rfl
  | receive how =>
      obtain ⟨_, ⟨_, _, _, rfl⟩ | rfl⟩ := next_receive h <;> exact Or.inl rfl
  | _ =>
      simp only [next, Option.ite_none_right_eq_some, Option.some_inj] at h
      obtain ⟨_, rfl⟩ := h
      exact Or.inl rfl

end Inversion

/-- The record that was delivered last and is not in the channel yet. -/
def inFlight (s : RingBuf κ ε V) : List Record :=
  match s.reader with
  | .sending r => [r]
  | _ => []

/-- The record that was discarded last and is not counted yet. -/
def uncounted (s : RingBuf κ ε V) : ℕ :=
  if s.reader = .countingDropped then 1 else 0

def InCallback (s : RingBuf κ ε V) : Prop :=
  match s.reader with
  | .sending _ => True
  | .countingDropped => True
  | .storingStop => True
  | _ => False

/-- What holds throughout a run with a channel of capacity `c`. -/
structure Inv (tryFrom : Record → Except ε V) (c : ℕ) (s : RingBuf κ ε V) : Prop where
  order : (s.handedOut ++ buffered s.rx ++ s.inFlight).Sublist s.delivered
  count : s.owner = .alive → s.delivered.length =
    s.handedOut.length + (buffered s.rx).length + s.inFlight.length + s.discarded.length
  counted : ∃ counted, s.dropped = UInt64.ofNat counted ∧
    s.discarded.length = counted + s.uncounted
  bound : (buffered s.rx).length ≤ c
  capacity : capacity s.rx = c
  isOpen : s.owner = .alive → isClosed s.rx = false ∧ s.reader ≠ .storingStop
  results : s.results = s.handedOut.map tryFrom

namespace Inv

variable {tryFrom : Record → Except ε V} {c : ℕ} {s s' : RingBuf κ ε V}

theorem of_new {mapType : MapType} {committed : List Record}
    (h : new mapType c committed = .ok s) : 0 < c ∧ s.Inv tryFrom c := by
  rw [new] at h
  split at h
  · cases h
  · split at h
    · cases h
    · rename_i hpos
      cases h
      refine ⟨Nat.pos_of_ne_zero hpos, ?_⟩
      constructor
      · simp [inFlight, buffered_channel]
      · simp [inFlight, buffered_channel]
      · exact ⟨0, rfl, rfl⟩
      · simp [buffered_channel]
      · exact capacity_channel c
      · simp [isClosed_channel]
      · rfl

/-- An action that touches neither the channel nor the books keeps the invariant. -/
theorem of_same (h : s.Inv tryFrom c) (hrx : s'.rx = s.rx)
    (hdelivered : s'.delivered = s.delivered) (hdiscarded : s'.discarded = s.discarded)
    (hdropped : s'.dropped = s.dropped) (hhanded : s'.handedOut = s.handedOut)
    (hresults : s'.results = s.results) (hflight : s'.inFlight = s.inFlight)
    (huncounted : s'.uncounted = s.uncounted)
    (halive : s'.owner = .alive → s.owner = .alive ∧ s'.reader ≠ .storingStop) :
    s'.Inv tryFrom c := by
  constructor
  · rw [hhanded, hrx, hflight, hdelivered]
    exact h.order
  · intro howner
    rw [hdelivered, hhanded, hrx, hflight, hdiscarded]
    exact h.count (halive howner).1
  · rw [hdiscarded, hdropped, huncounted]
    exact h.counted
  · rw [hrx]
    exact h.bound
  · rw [hrx]
    exact h.capacity
  · intro howner
    rw [hrx]
    exact ⟨(h.isOpen (halive howner).1).1, (halive howner).2⟩
  · rw [hresults, hhanded]
    exact h.results

theorem deliver (h : s.Inv tryFrom c) (hstep : s.next tryFrom .deliver = some s') :
    s'.Inv tryFrom c := by
  cases hreader : s.reader <;> cases hcommitted : s.committed <;>
    simp only [next, hreader, hcommitted, Option.some_inj, reduceCtorEq] at hstep
  rename_i r rest
  subst hstep
  have hflight : s.inFlight = [] := by rw [inFlight, hreader]
  constructor
  · have horder := h.order
    rw [hflight, List.append_nil] at horder
    exact horder.append (List.Sublist.refl [r])
  · intro howner
    have hcount := h.count howner
    rw [hflight] at hcount
    simp only [List.length_append, List.length_nil, List.length_cons, inFlight] at hcount ⊢
    omega
  · have hcounted := h.counted
    simpa [uncounted, hreader] using hcounted
  · exact h.bound
  · exact h.capacity
  · intro howner
    exact ⟨(h.isOpen howner).1, by simp⟩
  · exact h.results

theorem len_le (h : s.Inv tryFrom c) :
    BoundedChannel.len s.rx ≤ BoundedChannel.capacity s.rx := by
  rw [len_eq, h.capacity]
  exact h.bound

theorem sent (h : s.Inv tryFrom c) {r : Record} {rx : κ}
    (hreader : s.reader = .sending r) (hsend : BoundedChannel.trySend s.rx r = .ok rx) :
    Inv tryFrom c { s with rx, reader := .polling } := by
  obtain ⟨hbuffered, hcapacity, hclosed, hlt⟩ := of_trySend_eq_ok h.len_le hsend
  have hflight : s.inFlight = [r] := by rw [inFlight, hreader]
  constructor
  · have horder := h.order
    rw [hflight] at horder
    simpa [hbuffered, inFlight] using horder
  · intro howner
    have hcount := h.count howner
    rw [hflight] at hcount
    simp only [hbuffered, List.length_append, List.length_cons, List.length_nil,
      inFlight] at hcount ⊢
    omega
  · have hcounted := h.counted
    simpa [uncounted, hreader] using hcounted
  · rw [len_eq, h.capacity] at hlt
    rw [hbuffered, List.length_append]
    exact hlt
  · exact hcapacity.trans h.capacity
  · intro howner
    exact ⟨hclosed.trans (h.isOpen howner).1, by simp⟩
  · exact h.results

theorem full (h : s.Inv tryFrom c) {r : Record} (hreader : s.reader = .sending r) :
    Inv tryFrom c { s with reader := .countingDropped, discarded := s.discarded ++ [r] } := by
  have hflight : s.inFlight = [r] := by rw [inFlight, hreader]
  constructor
  · refine List.Sublist.trans ?_ h.order
    simp [inFlight]
  · intro howner
    have hcount := h.count howner
    rw [hflight] at hcount
    simp only [List.length_append, List.length_cons, List.length_nil, inFlight]
      at hcount ⊢
    omega
  · obtain ⟨counted, hdropped, hdiscarded⟩ := h.counted
    simp only [uncounted, hreader, reduceCtorEq, if_false] at hdiscarded
    exact ⟨counted, hdropped, by simp [uncounted, hdiscarded]⟩
  · exact h.bound
  · exact h.capacity
  · intro howner
    exact ⟨(h.isOpen howner).1, by simp⟩
  · exact h.results

theorem closed (h : s.Inv tryFrom c) {r : Record} (hreader : s.reader = .sending r)
    (hsend : BoundedChannel.trySend s.rx r = .error .closed) :
    Inv tryFrom c { s with reader := .storingStop } := by
  have hclosed := of_trySend_eq_closed h.len_le hsend
  have hgone : s.owner ≠ .alive := by
    intro howner
    rw [(h.isOpen howner).1] at hclosed
    cases hclosed
  constructor
  · refine List.Sublist.trans ?_ h.order
    simp [inFlight]
  · intro howner
    exact absurd howner hgone
  · have hcounted := h.counted
    simpa [uncounted, hreader] using hcounted
  · exact h.bound
  · exact h.capacity
  · intro howner
    exact absurd howner hgone
  · exact h.results

theorem trySend (h : s.Inv tryFrom c) (hstep : s.next tryFrom .trySend = some s') :
    s'.Inv tryFrom c := by
  obtain ⟨r, hreader, hcases⟩ := next_trySend hstep
  rcases hcases with ⟨rx, hsend, rfl⟩ | ⟨_, rfl⟩ | ⟨hsend, rfl⟩
  · exact h.sent hreader hsend
  · exact h.full hreader
  · exact h.closed hreader hsend

theorem fetchAdd (h : s.Inv tryFrom c) (hstep : s.next tryFrom .fetchAdd = some s') :
    s'.Inv tryFrom c := by
  simp only [next, Option.ite_none_right_eq_some, Option.some_inj] at hstep
  obtain ⟨hreader, rfl⟩ := hstep
  have hflight : s.inFlight = [] := by rw [inFlight, hreader]
  constructor
  · have horder := h.order
    rwa [hflight] at horder
  · intro howner
    have hcount := h.count howner
    rwa [hflight] at hcount
  · obtain ⟨counted, hdropped, hdiscarded⟩ := h.counted
    simp only [uncounted, hreader, if_true] at hdiscarded
    refine ⟨counted + 1, ?_, hdiscarded⟩
    rw [UInt64.ofNat_add, ← hdropped]
    rfl
  · exact h.bound
  · exact h.capacity
  · intro howner
    exact ⟨(h.isOpen howner).1, by simp⟩
  · exact h.results

theorem receive {how : Receive} (h : s.Inv tryFrom c)
    (hstep : s.next tryFrom (.receive how) = some s') : s'.Inv tryFrom c := by
  obtain ⟨halive, hcases⟩ := next_receive hstep
  rcases hcases with ⟨r, rx, hrecv, rfl⟩ | rfl
  · obtain ⟨hbuffered, hcapacity, hclosed⟩ := of_tryRecv_eq_some hrecv
    constructor
    · have horder := h.order
      simpa [hbuffered, inFlight] using horder
    · intro _
      have hcount := h.count halive
      simp only [hbuffered, List.length_append, List.length_cons, List.length_nil,
        inFlight] at hcount ⊢
      omega
    · exact h.counted
    · have hbound := h.bound
      rw [hbuffered, List.length_cons] at hbound
      exact Nat.le_of_succ_le hbound
    · exact hcapacity.trans h.capacity
    · intro _
      exact ⟨hclosed.trans (h.isOpen halive).1, (h.isOpen halive).2⟩
    · simp [h.results]
  · exact h

theorem dropClose (h : s.Inv tryFrom c) (hstep : s.next tryFrom .dropClose = some s') :
    s'.Inv tryFrom c := by
  simp only [next, Option.ite_none_right_eq_some, Option.some_inj] at hstep
  obtain ⟨_, rfl⟩ := hstep
  constructor
  · show List.Sublist (s.handedOut ++ buffered (close s.rx) ++ s.inFlight) s.delivered
    rw [buffered_close]
    exact h.order
  · intro howner
    cases howner
  · exact h.counted
  · simpa only [buffered_close] using h.bound
  · exact (capacity_close s.rx).trans h.capacity
  · intro howner
    cases howner
  · exact h.results

/-- Every action keeps the invariant. -/
theorem step (h : s.Inv tryFrom c) (hstep : s.Step tryFrom s') : s'.Inv tryFrom c := by
  obtain ⟨a, ha⟩ := hstep
  cases a with
  | deliver => exact h.deliver ha
  | trySend => exact h.trySend ha
  | fetchAdd => exact h.fetchAdd ha
  | receive how => exact h.receive ha
  | dropClose => exact h.dropClose ha
  | commit r =>
      cases ha
      exact h.of_same rfl rfl rfl rfl rfl rfl rfl rfl fun howner =>
        ⟨howner, (h.isOpen howner).2⟩
  | openRing ok =>
      simp only [next, Option.ite_none_right_eq_some, Option.some_inj] at ha
      obtain ⟨hreader, rfl⟩ := ha
      cases ok <;> exact h.of_same rfl rfl rfl rfl rfl rfl (by simp [inFlight, hreader])
        (by simp [uncounted, hreader]) fun howner => ⟨howner, by simp⟩
  | checkStop =>
      simp only [next, Option.ite_none_right_eq_some, Option.some_inj] at ha
      obtain ⟨hreader, rfl⟩ := ha
      cases hstop : s.stop <;> exact h.of_same rfl rfl rfl rfl rfl rfl
        (by simp [inFlight, hreader]) (by simp [uncounted, hreader])
        fun howner => ⟨howner, by simp⟩
  | returnFromPoll =>
      simp only [next, Option.ite_none_right_eq_some, Option.some_inj] at ha
      obtain ⟨hreader, rfl⟩ := ha
      exact h.of_same rfl rfl rfl rfl rfl rfl (by simp [inFlight, hreader])
        (by simp [uncounted, hreader]) fun howner => ⟨howner, by simp⟩
  | storeStop =>
      simp only [next, Option.ite_none_right_eq_some, Option.some_inj] at ha
      obtain ⟨hreader, rfl⟩ := ha
      exact h.of_same rfl rfl rfl rfl rfl rfl (by simp [inFlight, hreader])
        (by simp [uncounted, hreader]) fun howner => ⟨howner, by simp⟩
  | dropStop =>
      simp only [next, Option.ite_none_right_eq_some, Option.some_inj] at ha
      obtain ⟨_, rfl⟩ := ha
      exact h.of_same rfl rfl rfl rfl rfl rfl rfl rfl fun howner => nomatch howner
  | dropJoin =>
      simp only [next, Option.ite_none_right_eq_some, Option.some_inj] at ha
      obtain ⟨_, rfl⟩ := ha
      exact h.of_same rfl rfl rfl rfl rfl rfl rfl rfl fun howner => nomatch howner

theorem of_run {mapType : MapType} {committed : List Record} {s₀ : RingBuf κ ε V}
    (hnew : new mapType c committed = .ok s₀)
    (hrun : Relation.ReflTransGen (Step tryFrom) s₀ s) : s.Inv tryFrom c :=
  Runs.invariant (fun _ _ h hstep => h.step hstep) (of_new hnew).2 hrun

end Inv

/-- The records that were handed out and those that are buffered are, in order,
some of the records that were delivered, and all others were counted as dropped
when the channel was full. The counter wraps around, so the equation is one of its type,
and one of numbers until it does. Every record handed out was decoded. -/
structure Conserves (tryFrom : Record → Except ε V) (c : ℕ) (s : RingBuf κ ε V) :
    Prop where
  order : (s.handedOut ++ buffered s.rx).Sublist s.delivered
  count : ¬ s.InCallback → UInt64.ofNat s.delivered.length =
    UInt64.ofNat (s.handedOut.length + s.len) + s.dropped
  count_of_lt : ¬ s.InCallback → s.discarded.length < UInt64.size →
    s.delivered.length = s.handedOut.length + s.len + s.dropped.toNat
  counted : ¬ s.InCallback → s.dropped = UInt64.ofNat s.discarded.length
  len_le : s.len ≤ c
  full : ∀ s', s.Step tryFrom s' → s'.discarded ≠ s.discarded → s.len = c
  results : s.results = s.handedOut.map tryFrom

section Books

variable {tryFrom : Record → Except ε V} {c : ℕ} {s : RingBuf κ ε V}

omit [BoundedChannel κ Record] in
theorem idle_of_not_inCallback (h : ¬ s.InCallback) : s.inFlight = [] ∧ s.uncounted = 0 := by
  cases hreader : s.reader <;> simp [InCallback, hreader] at h <;>
    simp [inFlight, uncounted, hreader]

/-- The counter holds the number of discarded records, as far as it can. -/
theorem Inv.dropped_eq (h : s.Inv tryFrom c) (hout : ¬ s.InCallback) :
    s.dropped = UInt64.ofNat s.discarded.length := by
  obtain ⟨counted, hdropped, hdiscarded⟩ := h.counted
  rw [(idle_of_not_inCallback hout).2, Nat.add_zero] at hdiscarded
  rw [hdropped, hdiscarded]

theorem Inv.conserves (h : s.Inv tryFrom c) (halive : s.owner = .alive) :
    s.Conserves tryFrom c := by
  have hlen : s.len = (buffered s.rx).length := len_eq s.rx
  have hcount : ¬ s.InCallback →
      s.delivered.length = s.handedOut.length + s.len + s.discarded.length := by
    intro hout
    have hall := h.count halive
    rw [(idle_of_not_inCallback hout).1, List.length_nil] at hall
    omega
  constructor
  · exact (List.sublist_append_left _ _).trans h.order
  · intro hout
    rw [hcount hout, h.dropped_eq hout, UInt64.ofNat_add]
  · intro hout hlt
    rw [h.dropped_eq hout, UInt64.toNat_ofNat_of_lt' hlt]
    exact hcount hout
  · exact h.dropped_eq
  · rw [hlen]
    exact h.bound
  · rintro s' ⟨a, ha⟩ hne
    rcases discarded_of_next ha with hsame | ⟨r, hfull, _⟩
    · exact absurd hsame hne
    · exact (of_trySend_eq_full h.len_le hfull).trans h.capacity
  · exact h.results

end Books

end RingBuf

end Collections

end Xbpf
