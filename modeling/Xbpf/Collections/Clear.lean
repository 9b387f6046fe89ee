import Xbpf.Collections.Batch
import Xbpf.Collections.Interference

/-!
# Clearing a map while others delete from it

`clear` collects the keys and has a single batch call delete them. The kernel deletes
the keys of a batch in order, and others can delete keys in between. It stops at the
first key that is not there, so that an entry which someone else deleted keeps all
entries after it in the map.
-/

namespace Xbpf

namespace Collections

open Runs Maps HashMap

namespace MapProg

/-- The kernel deletes the keys of a batch in order. -/
def deleteBatch (keySize : ℕ) (keys : List UInt8) (count : UInt32) : MapProg Unit :=
  (slices keySize count.toNat keys).forM delete

end MapProg

namespace Client

open MapProg

variable {κ K V : Type} [Pod K] [Pod V]

def removeBatch (keySize : ℕ) (keys : List K) : MapProg Unit :=
  if keys.isEmpty then pure ()
  else deleteBatch keySize (podSliceBytes keys) (.ofNat keys.length)

theorem forM_cons {α : Type} (f : α → MapProg Unit) (a : α) (as : List α) :
    (a :: as).forM f = f a >>= fun _ => as.forM f :=
  rfl

theorem alone_forM {α : Type} [MapHandle κ] (f : α → MapProg Unit) (as : List α) :
    alone (as.forM f) = (as.forM fun a => alone (f a) : MapOp κ Unit) := by
  induction as with
  | nil => rfl
  | cons a as ih =>
      rw [forM_cons, HashMap.forM_cons, alone_bind]
      congr 1
      funext _
      exact ih

theorem removeBatch_eq {ks : List K} (hlt : ks.length < 2 ^ 32) :
    removeBatch (Pod.size K) ks = ks.forM delete := by
  cases hks : ks with
  | nil => rfl
  | cons k rest =>
      rw [← hks, removeBatch, if_neg (by simp [hks]), deleteBatch, toNat_count hlt, podSliceBytes,
        slices_flatMap Pod.length_toBytes]
      clear hlt hks
      induction ks with
      | nil => rfl
      | cons k ks ih =>
          rw [List.map_cons, forM_cons, forM_cons, ih, delete, podBytes_eq]

/-- Deletions that nothing interferes with are those of the batch call. -/
theorem alone_removeBatch [MapCore κ] {h : κ} (hfits : Fits K V h) {ks : List K}
    (hlt : ks.length < 2 ^ 32) :
    Agree (alone (removeBatch (MapHandle.keySize h) ks)) (HashMap.removeBatch ks) h := by
  obtain ⟨r, h₁, r', h₂, hbatch, hone, hok, hcontents⟩ := agree_removeBatch hfits ks hlt
  refine ⟨r', h₂, r, h₁, ?_, hbatch, hok.symm, hcontents.symm⟩
  rw [hfits.keySize, removeBatch_eq hlt, alone_forM]
  exact hone

end Client

section Deleters

variable (κ K : Type)

/-- Who runs after the keys have been collected: the call that deletes them, or
someone else who deletes a key. -/
inductive Deleter
  | clear
  | delete (key : K)

abbrev Deleters := Pool κ Syscall Syscall.Reply (Deleter K) (Option (Except Error Unit))

abbrev DoneDeleter := Returned κ Syscall Syscall.Reply (Deleter K) (Option (Except Error Unit))

variable {κ K} [MapHandle κ] [Pod K]

def Deleter.prog (keySize : ℕ) (ks : List K) :
    Deleter K → Prog Syscall Syscall.Reply (Option (Except Error Unit))
  | clear => (Client.removeBatch keySize ks).run.run
  | delete key => (Client.delete key).run.run

/-- A deleter starts, makes its next system call, or returns. -/
abbrev Deleters.Step (keySize : ℕ) (ks : List K) : Deleters κ K → Deleters κ K → Prop :=
  Pool.Step Syscall.act (Deleter.prog keySize ks)

/-- The system calls of those that are still running or in one of the given lists. -/
def Deleters.others (s : Deleters κ K) (before after : List (DoneDeleter κ K)) :
    List (Made κ Syscall Syscall.Reply) :=
  s.running.flatMap Running.made ++ (before ++ after).flatMap Returned.made

def missed (key : K) : Made κ Syscall Syscall.Reply → Prop
  | ⟨_, .delete k, reply, _⟩ => k = podBytes key ∧ ∃ err, reply = .error err
  | _ => False

def Deletes (K : Type) [Pod K] (c : Syscall) : Prop :=
  ∃ key : K, c = .delete (podBytes key)

end Deleters

section Programs

variable {κ K V : Type} [Pod K] [Pod V]

theorem only_delete (key : K) : (Client.delete key).run.run.Only (Deletes K) :=
  ⟨⟨key, rfl⟩, fun _ => trivial⟩

theorem only_deletes (ks : List K) :
    (ks.forM Client.delete : MapProg Unit).run.run.Only (Deletes K) := by
  induction ks with
  | nil => trivial
  | cons k ks ih =>
      rw [Client.forM_cons, MapProg.run_bind]
      refine (only_delete k).bind fun r => ?_
      rcases r with _ | _ | _
      · trivial
      · trivial
      · exact ih

/-- Deletions in order delete all keys, or they have stopped at a key that was
missed, where the calls before were about the keys before it. -/
theorem ensures_deletes (ks : List K) :
    (ks.forM Client.delete : MapProg Unit).run.run.Ensures κ fun made r =>
      (r = some (.ok ()) ∧ ∀ k ∈ ks, ∃ m ∈ made, deleted k m = true) ∨
      (r ≠ some (.ok ()) ∧ ∃ before k after made' m, ks = before ++ k :: after ∧
        made = made' ++ [m] ∧ missed k m ∧
        ∀ m' ∈ made', ∃ k' ∈ before, m'.action = .delete (podBytes k')) := by
  induction ks with
  | nil => exact .ret (Or.inl ⟨rfl, fun k hk => nomatch hk⟩)
  | cons k ks ih =>
      rw [Client.forM_cons, MapProg.run_bind]
      refine .call fun pre reply post => ?_
      rcases reply with err | ⟨⟩
      · refine .ret (Or.inr ⟨by simp, [], k, ks, [], _, rfl, rfl, ⟨rfl, err, rfl⟩, ?_⟩)
        exact fun m' hm' => nomatch hm'
      · refine ih.mono fun made r hrest => ?_
        rcases hrest with ⟨hr, hall⟩ | ⟨hr, before, k', after, made', m, rfl, rfl, hm, hmade⟩
        · refine Or.inl ⟨hr, fun k' hk' => ?_⟩
          rcases List.mem_cons.mp hk' with rfl | hk'
          · exact ⟨_, List.mem_cons_self, by simp [deleted]⟩
          · obtain ⟨m, hm, hdeleted⟩ := hall k' hk'
            exact ⟨m, List.mem_cons_of_mem _ hm, hdeleted⟩
        · refine Or.inr ⟨hr, k :: before, k', after, _ :: made', m, rfl, rfl, hm, ?_⟩
          intro m' hm'
          rcases List.mem_cons.mp hm' with rfl | hm'
          · exact ⟨k, List.mem_cons_self, rfl⟩
          · obtain ⟨k'', hk'', haction⟩ := hmade m' hm'
            exact ⟨k'', List.mem_cons_of_mem k hk'', haction⟩

end Programs

section Calls

variable {κ K : Type} [Pod K] {m : Made κ Syscall Syscall.Reply} {key : K}

theorem action_of_deleted (h : deleted key m = true) : m.action = .delete (podBytes key) := by
  rcases m with ⟨pre, _ | _ | k, reply, post⟩
  · cases h
  · cases h
  · rcases reply with err | ⟨⟩
    · cases h
    · exact congrArg Syscall.delete (of_decide_eq_true h)

theorem of_missed (h : missed key m) :
    m.action = .delete (podBytes key) ∧ ∀ k : K, deleted k m = false := by
  rcases m with ⟨pre, _ | _ | k, reply, post⟩
  · cases h
  · cases h
  · obtain ⟨rfl, err, rfl⟩ := h
    exact ⟨rfl, fun _ => rfl⟩

end Calls

section Atomic

variable {κ K V : Type} [MapHandle κ] [Pod K] [Pod V] {m : Made κ Syscall Syscall.Reply}
  {key : K}

theorem delete_cases (haction : m.action = .delete (podBytes key)) (hfits : Fits K V m.pre)
    (hact : Syscall.act m.action m.pre = (m.reply, m.post)) :
    (deleted key m = true ∧ present key m.pre = true ∧ present key m.post = false ∧
        ∀ k : K, k ≠ key → present k m.post = present k m.pre) ∨
      (missed key m ∧ present key m.pre = false ∧ ∀ k : K, present k m.post = present k m.pre) := by
  rcases m with ⟨pre, action, reply, post⟩
  obtain rfl : action = .delete (podBytes key) := haction
  have hlen : (podBytes key).length = MapHandle.keySize pre := by
    rw [length_podBytes, hfits.keySize]
  have hdelete : MapHandle.delete pre (podBytes key) = (reply, post) := hact
  by_cases hpre : ((MapHandle.contents pre).get (podBytes key)).isSome = true
  · obtain ⟨hreply, hcontents⟩ := MapHandle.delete_ok pre _ _ hlen
      (if_pos hpre : (MapHandle.contents pre).delete (podBytes key) = _)
    rw [hdelete] at hreply hcontents
    obtain rfl : reply = .ok () := hreply
    refine Or.inl ⟨by simp [deleted], hpre, ?_, fun k hk => ?_⟩
    · simp [present, hcontents]
    · have hne : podBytes k ≠ podBytes key := fun heq => hk (podBytes_injective heq)
      simp [present, hcontents, hne]
  · obtain ⟨⟨err, hreply, _⟩, hcontents⟩ := MapHandle.delete_error pre _ _ hlen
      (if_neg hpre : (MapHandle.contents pre).delete (podBytes key) = _)
    rw [hdelete] at hreply hcontents
    refine Or.inr ⟨⟨rfl, err, hreply⟩, Bool.eq_false_of_not_eq_true hpre, fun k => ?_⟩
    rw [present, present, hcontents]

theorem rises_of_deletes (haction : Deletes K m.action) (hfits : Fits K V m.pre)
    (hact : Syscall.act m.action m.pre = (m.reply, m.post)) (k : K) :
    Pool.rises (present k) m = false := by
  obtain ⟨key, haction⟩ := haction
  rcases delete_cases haction hfits hact with ⟨_, _, hpost, hother⟩ | ⟨_, _, hother⟩
  · by_cases hk : k = key
    · simp [Pool.rises, hk, hpost]
    · simp [Pool.rises, hother k hk]
  · simp [Pool.rises, hother k]

theorem deleted_of_falls (haction : Deletes K m.action) (hfits : Fits K V m.pre)
    (hact : Syscall.act m.action m.pre = (m.reply, m.post)) {k : K}
    (hfalls : Pool.falls (present k) m = true) : deleted k m = true := by
  obtain ⟨key, haction⟩ := haction
  rcases delete_cases haction hfits hact with ⟨hdeleted, _, _, hother⟩ | ⟨_, _, hother⟩
  · by_cases hk : k = key
    · rwa [hk]
    · simp [Pool.falls, hother k hk] at hfalls
  · simp [Pool.falls, hother k] at hfalls

end Atomic

section Clearing

variable {κ K V : Type} [MapCore κ] [Pod K] [Pod V] {h₀ : κ} {ks : List K}

/-- What holds however the deletions of the collected keys are interleaved. -/
structure Clearing (V : Type) [Pod V] (h₀ : κ) (ks : List K) (s : Deleters κ K) : Prop where
  nodup : ks.Nodup
  lt : ks.length < 2 ^ 32
  keySize : MapHandle.keySize h₀ = Pod.size K
  sound : Pool.Sound Syscall.act (Deleter.prog (MapHandle.keySize h₀) ks) (Fits K V) s
  balance : ∀ k ∈ ks, 1 = (present k s.now).toNat + s.made.countP (Pool.falls (present k))
  kept : ∀ k ∈ ks, (∀ m ∈ s.made, deleted k m = false) → ∀ m ∈ s.made, present k m.pre = true

namespace Clearing

/-- The collected keys are there at first, and nobody adds keys. -/
theorem of_run (hfits : Fits K V h₀) (hkeys : (keys K).run h₀ = some (.ok ks, h₀))
    {s : Deleters κ K} (hrun : Relation.ReflTransGen
      (Deleters.Step (MapHandle.keySize h₀) ks) (Pool.start h₀) s) : Clearing V h₀ ks s := by
  classical
  obtain ⟨ks', hrun', hwalk⟩ := run_keys hfits
  rw [hkeys] at hrun'
  cases hrun'
  obtain ⟨m, hm⟩ := exists_represents hfits
  have hpresent : ∀ k ∈ ks, present k h₀ = true := by
    intro k hk
    rw [present, hm.coded.isSome_eq]
    exact (mem_keys hm hwalk k).mp hk
  have hsound : Pool.Sound Syscall.act (Deleter.prog (MapHandle.keySize h₀) ks) (Fits K V) s :=
    .of_run fits_act hfits hrun
  have honly : ∀ m ∈ s.made, Deletes K m.action := by
    refine fun m hm => hsound.only (fun label => ?_) hm
    cases label with
    | clear =>
        rw [Deleter.prog, hfits.keySize, Client.removeBatch_eq (length_keys_lt hwalk)]
        exact only_deletes ks
    | delete key => exact only_delete key
  refine ⟨nodup_keys hwalk, length_keys_lt hwalk, hfits.keySize, hsound, ?_, ?_⟩
  · intro k hk
    have hrises : s.made.countP (Pool.rises (present k)) = 0 := by
      refine List.countP_eq_zero.mpr fun m hm => ?_
      obtain ⟨hpre, hact⟩ := hsound.acted m hm
      simp [rises_of_deletes (honly m hm) hpre hact k]
    have hbalance := Pool.balance (present k) hrun
    rwa [hpresent k hk, hrises] at hbalance
  · intro k hk hdeleted
    refine (Pool.kept (present k) hrun (hpresent k hk) fun m hm => ?_).2
    obtain ⟨hpre, hact⟩ := hsound.acted m hm
    refine Bool.eq_false_of_not_eq_true fun hfalls => ?_
    have htrue := deleted_of_falls (honly m hm) hpre hact hfalls
    rw [hdeleted m hm] at htrue
    cases htrue

variable {s : Deleters κ K} {r : DoneDeleter κ K}

/-- A key that was deleted was deleted once, and is gone. -/
theorem once (h : Clearing V h₀ ks s) {k : K} (hk : k ∈ ks) :
    s.made.countP (deleted k) ≤ 1 ∧
      (0 < s.made.countP (deleted k) → present k s.now = false) := by
  have hfalls : s.made.countP (deleted k) ≤ s.made.countP (Pool.falls (present k)) := by
    refine List.countP_mono_left fun m hm hdeleted => ?_
    obtain ⟨hpre, hact⟩ := h.sound.acted m hm
    exact falls_of_deleted hdeleted hpre hact
  have hbalance := h.balance k hk
  refine ⟨by omega, fun hpos => ?_⟩
  cases hnow : present k s.now with
  | false => rfl
  | true =>
      rw [hnow, Bool.toNat_true] at hbalance
      omega

theorem ensures_clear (h : Clearing V h₀ ks s) (hr : r ∈ s.returned) (hclear : r.label = .clear) :
    (r.result = some (.ok ()) ∧ ∀ k ∈ ks, ∃ m ∈ r.made, deleted k m = true) ∨
      (r.result ≠ some (.ok ()) ∧ ∃ before k after made' m, ks = before ++ k :: after ∧
        r.made = made' ++ [m] ∧ missed k m ∧
        ∀ m' ∈ made', ∃ k' ∈ before, m'.action = .delete (podBytes k')) := by
  have hleaves := (h.sound.returned r hr).1
  rw [hclear, Deleter.prog, h.keySize, Client.removeBatch_eq h.lt] at hleaves
  exact ensures_deletes ks r.made r.result hleaves

/-- If nobody else deletes a collected key, the batch call does not miss one. -/
theorem not_missed (h : Clearing V h₀ ks s) {before after : List (DoneDeleter κ K)}
    (hsplit : s.returned = before ++ r :: after)
    (halone : ∀ k ∈ ks, ∀ m ∈ s.others before after, deleted k m = false)
    {front : List K} {k : K} {back : List K} {made} {m : Made κ Syscall Syscall.Reply}
    (hks : ks = front ++ k :: back) (hmade : r.made = made ++ [m]) (hmissed : missed k m)
    (hfront : ∀ m' ∈ made, ∃ k' ∈ front, m'.action = .delete (podBytes k')) : False := by
  have hk : k ∈ ks := by rw [hks]; simp
  have hcalls := h.sound.calls_of_split hsplit
  have hmem : m ∈ s.made := hcalls.mem_iff.mp (List.mem_append_right _ (by rw [hmade]; simp))
  have hnot : ∀ m' ∈ s.made, deleted k m' = false := by
    intro m' hm'
    rcases List.mem_append.mp (hcalls.mem_iff.mpr hm') with hm' | hm'
    · exact halone k hk m' hm'
    · rw [hmade] at hm'
      rcases List.mem_append.mp hm' with hm' | hm'
      · obtain ⟨k', hk', haction⟩ := hfront m' hm'
        refine Bool.eq_false_of_not_eq_true fun hdeleted => ?_
        rw [action_of_deleted hdeleted, Syscall.delete.injEq] at haction
        have hnodup := h.nodup
        rw [hks, podBytes_injective haction] at hnodup
        exact (List.disjoint_of_nodup_append hnodup) hk' List.mem_cons_self
      · rw [List.mem_singleton.mp hm']
        exact (of_missed hmissed).2 k
  obtain ⟨hpre, hact⟩ := h.sound.acted m hmem
  have hpresent := h.kept k hk hnot m hmem
  rcases delete_cases (of_missed hmissed).1 hpre hact with ⟨hdeleted, _⟩ | ⟨_, habsent, _⟩
  · rw [(of_missed hmissed).2 k] at hdeleted
    cases hdeleted
  · rw [habsent] at hpresent
    cases hpresent

end Clearing

section Theorems

variable {s : Deleters κ K} {r : DoneDeleter κ K}

/-- However the deletions of others are interleaved with its own, `clear` returns Ok and
leaves none of the keys it collected, unless someone else has deleted one of them. -/
theorem clears_iff (hfits : Fits K V h₀) (hkeys : (keys K).run h₀ = some (.ok ks, h₀))
    (hrun : Relation.ReflTransGen (Deleters.Step (MapHandle.keySize h₀) ks) (Pool.start h₀) s)
    {before after : List (DoneDeleter κ K)} (hsplit : s.returned = before ++ r :: after)
    (hclear : r.label = .clear) :
    (r.result = some (.ok ()) ∧ ∀ k ∈ ks, present k s.now = false) ↔
      ∀ k ∈ ks, ∀ m ∈ s.others before after, deleted k m = false := by
  have h : Clearing V h₀ ks s := .of_run hfits hkeys hrun
  have hr : r ∈ s.returned := by rw [hsplit]; simp
  have hcalls := h.sound.calls_of_split hsplit
  have hown : ∀ k : K, 0 < r.made.countP (deleted k) →
      (s.others before after).countP (deleted k) + 1 ≤ s.made.countP (deleted k) := by
    intro k hpos
    rw [← hcalls.countP_eq, List.countP_append]
    exact Nat.add_le_add_left hpos _
  constructor
  · rintro ⟨hok, _⟩ k hk
    rcases h.ensures_clear hr hclear with ⟨_, hall⟩ | ⟨hne, _⟩
    · have hpos := List.countP_pos_iff.mpr (hall k hk)
      have honce := (h.once hk).1
      have hzero : (s.others before after).countP (deleted k) = 0 := by
        have := hown k hpos
        omega
      intro m hm
      exact Bool.eq_false_of_not_eq_true (List.countP_eq_zero.mp hzero m hm)
    · exact absurd hok hne
  · intro halone
    rcases h.ensures_clear hr hclear with
      ⟨hok, hall⟩ | ⟨_, front, k, back, made, m, hks, hmade, hmissed, hfront⟩
    · refine ⟨hok, fun k hk => (h.once hk).2 ?_⟩
      have hpos := List.countP_pos_iff.mpr (hall k hk)
      exact Nat.lt_of_lt_of_le (Nat.succ_pos _) (hown k hpos)
    · exact (h.not_missed hsplit halone hks hmade hmissed hfront).elim

end Theorems

end Clearing

section Example

def twoEntries : HashTable :=
  (((HashTable.create 1 1 4).update [3] [4] .any).2.update [5] [6] .any).2

/-- Two entries are cleared, while someone else deletes a key that is not there. -/
theorem clears_iff_twoEntries :
    ∃ (s : Deleters HashTable UInt8) (r other : DoneDeleter HashTable UInt8),
      s.returned = [r, other] ∧ other.label = .delete 7 ∧ r.result = some (.ok ()) ∧
        ∀ k ∈ ([3, 5] : List UInt8), present k s.now = false := by
  have hbegun : Relation.ReflTransGen (Deleters.Step 1 ([3, 5] : List UInt8))
      (Pool.start twoEntries) _ :=
    (Relation.ReflTransGen.single (.enter _ .clear)).tail (.call (List.nil_append _).symm rfl)
  have hother := ((hbegun.tail (.enter _ (.delete 7))).tail
    (.call (List.nil_append _).symm rfl)).tail (.leave (List.nil_append _).symm)
  have hrun := (hother.tail (.call (List.nil_append _).symm rfl)).tail
    (.leave (List.nil_append _).symm)
  have hfits : Fits UInt8 UInt8 twoEntries := ⟨rfl, rfl⟩
  refine ⟨_, _, _, rfl, rfl, (clears_iff hfits rfl hrun (List.nil_append _).symm rfl).mpr ?_⟩
  intro k _ m hm
  rw [List.mem_singleton.mp hm]
  rfl

/-- The first of two entries is deleted by someone else before the batch call gets to
it. The call fails, and the second entry stays. -/
theorem not_clears_deleted :
    ∃ (s : Deleters HashTable UInt8) (r : DoneDeleter HashTable UInt8),
      (keys UInt8).run twoEntries = some (.ok [3, 5], twoEntries) ∧
        Relation.ReflTransGen (Deleters.Step 1 [3, 5]) (Pool.start twoEntries) s ∧
        r ∈ s.returned ∧ r.label = .clear ∧ r.result ≠ some (.ok ()) ∧
        present (5 : UInt8) s.now = true := by
  have hrun : Relation.ReflTransGen (Deleters.Step 1 ([3, 5] : List UInt8))
      (Pool.start twoEntries) _ :=
    (((((Relation.ReflTransGen.single (.enter _ .clear)).tail (.enter _ (.delete 3))).tail
      (.call (List.nil_append _).symm rfl)).tail (.leave (List.nil_append _).symm)).tail
        (.call (List.nil_append _).symm rfl)).tail (.leave (List.nil_append _).symm)
  exact ⟨_, _, rfl, hrun, List.mem_cons_self, rfl, nofun, rfl⟩

end Example

end Collections

end Xbpf
