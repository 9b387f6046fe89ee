import Xbpf.Collections.Client
import Xbpf.Runs.Interleaving

/-!
# Clients of one hash map

Clients that share a hash map make their system calls in any order, so between the
lookup and the delete of a `remove` any other call may come. What makes up for this
is that deleting an absent key is an error, which `remove` passes on: whoever hands
out an entry has deleted it itself.
-/

namespace Xbpf

namespace Collections

open Runs Maps HashMap

namespace MapProg

variable {σ R S : Type}

theorem ensures_bind {p : MapProg R} {f : R → MapProg S}
    {Q : List (Made σ Syscall Syscall.Reply) → Option (Except Error S) → Prop}
    (hok : p.run.run.Ensures σ fun made r => ∀ x, r = some (.ok x) →
      (f x).run.run.Ensures σ fun made' => Q (made ++ made'))
    (herror : ∀ made err, Q made (some (.error err))) (hnone : ∀ made, Q made none) :
    (p >>= f).run.run.Ensures σ Q := by
  rw [run_bind]
  refine Prog.Ensures.bind (hok.mono fun made r h => ?_)
  rcases r with _ | err | x
  · exact .ret (hnone _)
  · exact .ret (herror _ err)
  · exact h x rfl

theorem ensures_map {p : MapProg R} {f : R → S}
    {Q : List (Made σ Syscall Syscall.Reply) → Option (Except Error S) → Prop}
    (h : p.run.run.Ensures σ fun made r => Q made (r.map fun r => r.map f)) :
    (f <$> p).run.run.Ensures σ Q := by
  have hrun : (f <$> p).run.run = p.run.run.bind fun r => .ret (r.map fun r => r.map f) := by
    show Prog.bind _ _ = Prog.bind _ _
    congr 1
    funext r
    rcases r with _ | _ | _ <;> rfl
  rw [hrun]
  refine Prog.Ensures.bind (h.mono fun made r hr => .ret ?_)
  rwa [List.append_nil]

end MapProg

section Clients

variable (κ K V : Type)

abbrev Clients := Pool κ Syscall Syscall.Reply (Call K V) (Option (Except Error (Answer V)))

variable {κ K V} [MapHandle κ] [Pod K] [Pod V]

/-- A client begins a call, makes the next system call of one, or returns from one. -/
abbrev Clients.Step : Clients κ K V → Clients κ K V → Prop :=
  Pool.Step Syscall.act fun call => (Client.prog call).run.run

/-- How often the key went from absent to present, where being there at first
counts. -/
def appearances (key : K) (h₀ : κ) (s : Clients κ K V) : ℕ :=
  (present key h₀).toNat + s.made.countP (Pool.rises (present key))

def found (key : K) (v : V) : Made κ Syscall Syscall.Reply → Prop
  | ⟨_, .lookup k, reply, _⟩ => k = podBytes key ∧
      ∃ bytes, reply = .ok (some bytes) ∧ podFromBytes bytes = some v
  | _ => False

def deleted (key : K) : Made κ Syscall Syscall.Reply → Bool
  | ⟨_, .delete k, reply, _⟩ =>
      match reply with
      | .ok () => k = podBytes key
      | .error _ => false
  | _ => false

def Call.key : Call K V → K
  | get key => key
  | containsKey key => key
  | insert key _ => key
  | update key _ => key
  | insertNew key _ => key
  | replace key _ => key
  | remove key => key
  | delete key => key

/-- The call removed the key and handed out its entry. -/
def handsOut [DecidableEq K] (key : K) : Call K V → Option (Except Error (Answer V)) → Bool
  | .remove k, some (.ok (.value (some _))) => k = key
  | .delete k, some (.ok .done) => k = key
  | _, _ => false

end Clients

namespace Client

variable {κ K V : Type} [Pod K] [Pod V]

open MapProg

theorem ensures_get (key : K) :
    (get key : MapProg (Option V)).run.run.Ensures κ fun made r =>
      ∀ v, r = some (.ok (some v)) → ∃ m ∈ made, found key v m := by
  refine .call fun pre reply post => ?_
  rcases reply with err | bytes | bytes
  · exact .ret fun v h => by cases h
  · exact .ret fun v h => by cases h
  · show (some <$> reads bytes : MapProg (Option V)).run.run.Ensures κ _
    refine ensures_map (.ret fun v h => ⟨_, List.mem_singleton_self _, rfl, bytes, rfl, ?_⟩)
    cases hread : (podFromBytes bytes : Option V) <;> rw [hread] at h <;> cases h
    rfl

theorem ensures_delete (key : K) :
    (delete key : MapProg Unit).run.run.Ensures κ fun made r =>
      r = some (.ok ()) → ∃ m ∈ made, deleted key m := by
  refine .call fun pre reply post => ?_
  refine .ret fun h => ⟨_, List.mem_singleton_self _, ?_⟩
  rcases reply with err | ⟨⟩
  · cases h
  · simp [deleted]

theorem ensures_insert (key : K) (value : V) :
    (insert key value).run.run.Ensures κ fun made r =>
      ∀ v, r = some (.ok (some v)) → ∃ m ∈ made, found key v m := by
  refine ensures_bind ((ensures_get key).mono fun made r hget old hr => ?_)
    (fun _ _ _ h => by cases h) fun _ _ h => by cases h
  subst hr
  have hrest : (do update key value; pure old : MapProg (Option V)).run.run.Ensures κ
      fun _ r => ∀ v, r = some (.ok (some v)) → old = some v := by
    refine ensures_bind (fun made r _ _ _ => .ret fun v h => ?_)
      (fun _ _ _ h => by cases h) fun _ _ h => by cases h
    simpa using h
  refine hrest.mono fun made' r hold v hr => ?_
  obtain ⟨m, hm, hfound⟩ := hget v (by rw [hold v hr])
  exact ⟨m, List.mem_append_left _ hm, hfound⟩

theorem ensures_remove (key : K) :
    (remove key : MapProg (Option V)).run.run.Ensures κ fun made r =>
      ∀ v, r = some (.ok (some v)) →
        (∃ m ∈ made, found key v m) ∧ ∃ m ∈ made, deleted key m := by
  refine ensures_bind ((ensures_get key).mono fun made r hget old hr => ?_)
    (fun _ _ _ h => by cases h) fun _ _ h => by cases h
  subst hr
  cases old with
  | none => exact .ret fun v h => by cases h
  | some old =>
      have hrest : (do delete key; pure (some old) : MapProg (Option V)).run.run.Ensures κ
          fun made r => ∀ v, r = some (.ok (some v)) →
            old = v ∧ ∃ m ∈ made, deleted key m := by
        refine ensures_bind ((ensures_delete key).mono fun made r hdel _ hr => .ret ?_)
          (fun _ _ _ h => by cases h) fun _ _ h => by cases h
        intro v h
        obtain ⟨m, hm, hdeleted⟩ := hdel hr
        exact ⟨by simpa using h, m, List.mem_append_left _ hm, hdeleted⟩
      refine hrest.mono fun made' r hrest v hr => ?_
      obtain ⟨rfl, m, hm, hdeleted⟩ := hrest v hr
      obtain ⟨m', hm', hfound⟩ := hget old rfl
      exact ⟨⟨m', List.mem_append_left _ hm', hfound⟩, m, List.mem_append_right _ hm, hdeleted⟩

/-- Whatever value a call returns, it found. -/
theorem ensures_found (call : Call K V) :
    (prog call).run.run.Ensures κ fun made r =>
      ∀ v, r = some (.ok (.value (some v))) → ∃ m ∈ made, found call.key v m := by
  cases call with
  | get key =>
      refine ensures_map ((ensures_get key).mono fun made r h v hr => h v ?_)
      rcases r with _ | _ | _ <;> cases hr
      rfl
  | insert key value =>
      refine ensures_map ((ensures_insert key value).mono fun made r h v hr => h v ?_)
      rcases r with _ | _ | _ <;> cases hr
      rfl
  | remove key =>
      refine ensures_map ((ensures_remove key).mono fun made r h v hr => (h v ?_).1)
      rcases r with _ | _ | _ <;> cases hr
      rfl
  | _ =>
      refine ensures_map fun made r _ v hr => ?_
      rcases r with _ | _ | _ <;> cases hr

/-- Whatever entry a call hands out, it deleted. -/
theorem ensures_deleted [DecidableEq K] (key : K) (call : Call K V) :
    (prog call).run.run.Ensures κ fun made r =>
      handsOut key call r = true → ∃ m ∈ made, deleted key m := by
  cases call with
  | remove key' =>
      refine ensures_map ((ensures_remove key').mono fun made r h hr => ?_)
      rcases r with _ | _ | _ | v <;> simp [handsOut, Except.map] at hr
      subst hr
      exact (h v rfl).2
  | delete key' =>
      refine ensures_map ((ensures_delete key').mono fun made r h hr => ?_)
      rcases r with _ | _ | ⟨⟩ <;> simp [handsOut, Except.map] at hr
      subst hr
      exact h rfl
  | _ =>
      refine fun made r _ hr => ?_
      simp [handsOut] at hr

end Client

section Atomic

variable {κ K V : Type} [MapHandle κ] [Pod K] [Pod V]

theorem fits_act (c : Syscall) (h : κ) (hfits : Fits K V h) : Fits K V (Syscall.act c h).2 := by
  cases c with
  | lookup key => exact hfits
  | update key value flag =>
      exact ⟨(MapHandle.keySize_update ..).trans hfits.keySize,
        (MapHandle.valueSize_update ..).trans hfits.valueSize⟩
  | delete key =>
      exact ⟨(MapHandle.keySize_delete ..).trans hfits.keySize,
        (MapHandle.valueSize_delete ..).trans hfits.valueSize⟩

variable {key : K} {v : V} {m : Made κ Syscall Syscall.Reply}

theorem valueOf_of_found (hfound : found key v m) (hfits : Fits K V m.pre)
    (hact : Syscall.act m.action m.pre = (m.reply, m.post)) : valueOf m.pre key = some v := by
  rcases m with ⟨pre, _ | _ | _, reply, post⟩
  · obtain ⟨rfl, bytes, rfl, hread⟩ := hfound
    have hlen : (podBytes key).length = MapHandle.keySize pre := by
      rw [length_podBytes, hfits.keySize]
    have hlookup : MapHandle.lookup pre (podBytes key) = .ok (some bytes) :=
      (Prod.mk.inj hact).1
    rw [MapHandle.lookup_eq pre _ hlen, Except.ok.injEq] at hlookup
    rw [valueOf, hlookup]
    exact hread
  · cases hfound
  · cases hfound

theorem falls_of_deleted (hdeleted : deleted key m = true) (hfits : Fits K V m.pre)
    (hact : Syscall.act m.action m.pre = (m.reply, m.post)) :
    Pool.falls (present key) m = true := by
  rcases m with ⟨pre, _ | _ | _, reply, post⟩
  · cases hdeleted
  · cases hdeleted
  · rcases reply with err | ⟨⟩
    · cases hdeleted
    · obtain rfl := of_decide_eq_true hdeleted
      have hlen : (podBytes key).length = MapHandle.keySize pre := by
        rw [length_podBytes, hfits.keySize]
      have hdelete : MapHandle.delete pre (podBytes key) = (.ok (), post) := hact
      by_cases hpre : ((MapHandle.contents pre).get (podBytes key)).isSome = true
      · have herase : (MapHandle.contents pre).delete (podBytes key) =
            .ok ((MapHandle.contents pre).erase (podBytes key)) := if_pos hpre
        obtain ⟨_, hcontents⟩ := MapHandle.delete_ok pre _ _ hlen herase
        rw [hdelete] at hcontents
        simp [Pool.falls, present, hpre, hcontents]
      · have habsent : (MapHandle.contents pre).delete (podBytes key) = .error .absent :=
          if_neg hpre
        obtain ⟨⟨err, herr, _⟩, _⟩ := MapHandle.delete_error pre _ _ hlen habsent
        rw [hdelete] at herr
        cases herr

end Atomic

section Handout

variable {κ K V : Type} [MapHandle κ] [Pod K] [Pod V]

/-- However the system calls of any number of clients are interleaved, an entry is
handed out at most once each time its key appears, and what a call returns as the
value of its key was its value at some moment during the call. -/
theorem handsOut_le_appearances [DecidableEq K] (key : K) {h₀ : κ}
    (hfits : Fits K V h₀) {s : Clients κ K V}
    (hrun : Relation.ReflTransGen Clients.Step (Pool.start h₀) s) :
    s.returned.countP (fun r => handsOut key r.label r.result) ≤ appearances key h₀ s ∧
      ∀ r ∈ s.returned, ∀ v, r.result = some (.ok (.value (some v))) →
        ∃ h ∈ r.seen, valueOf h r.label.key = some v := by
  have hsound : Pool.Sound Syscall.act (fun call => (Client.prog call).run.run)
      (Fits K V) s := .of_run fits_act hfits hrun
  constructor
  · have hdeleted := hsound.countP_returned_le (Client.ensures_deleted key)
    have hfalls : s.made.countP (deleted key) ≤ s.made.countP (Pool.falls (present key)) := by
      refine List.countP_mono_left fun m hm hdel => ?_
      obtain ⟨hpre, hact⟩ := hsound.acted m hm
      exact falls_of_deleted hdel hpre hact
    have hbalance := Pool.balance (present key) hrun
    rw [appearances, hbalance]
    exact (hdeleted.trans hfalls).trans (Nat.le_add_left _ _)
  · intro r hr v hv
    obtain ⟨m, hm, hfound⟩ := hsound.ensures Client.ensures_found hr v hv
    obtain ⟨hmade, hseen⟩ := hsound.mem_made hr hm
    obtain ⟨hpre, hact⟩ := hsound.acted m hmade
    exact ⟨m.pre, hseen, valueOf_of_found hfound hpre hact⟩

end Handout

/-- While a client removes an entry another one changes its value. The value that the
first one found is handed out, once. -/
theorem handsOut_le_appearances_table :
    ∃ s : Clients Table UInt8 UInt8, ∃ r ∈ s.returned,
      (s.returned.countP (fun r => handsOut 3 r.label r.result) = 1 ∧
        1 ≤ appearances 3 (Table.create 1 1 2) s) ∧
      r.label = .remove 3 ∧ r.result = some (.ok (.value (some 4))) ∧
        ∃ h ∈ r.seen, valueOf h (3 : UInt8) = some (4 : UInt8) := by
  have hstored : Relation.ReflTransGen
      (Clients.Step : Clients Table UInt8 UInt8 → Clients Table UInt8 UInt8 → Prop)
      (Pool.start (Table.create 1 1 2)) _ :=
    ((Relation.ReflTransGen.single (.enter _ (.update 3 4))).tail
      (.call (List.nil_append _).symm rfl)).tail (.leave (List.nil_append _).symm)
  have hfound := (hstored.tail (.enter _ (.remove 3))).tail
    (.call (List.nil_append _).symm rfl)
  have hchanged := ((hfound.tail (.enter _ (.update 3 7))).tail
    (.call (List.nil_append _).symm rfl)).tail (.leave (List.nil_append _).symm)
  have hrun := (hchanged.tail (.call (List.nil_append _).symm rfl)).tail
    (.leave (List.nil_append _).symm)
  obtain ⟨hcount, hvalue⟩ := handsOut_le_appearances 3 ⟨rfl, rfl⟩ hrun
  exact ⟨_, _, List.mem_cons_self, ⟨by decide, hcount⟩, rfl, rfl,
    hvalue _ List.mem_cons_self 4 rfl⟩

end Collections

end Xbpf
