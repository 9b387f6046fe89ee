import Xbpf.Collections.Interference

/-!
# Electing a client

Of all clients that store their value under a key with `insert_new`, one succeeds for each
time that the key was not there. If the key is never removed or overwritten, this elects a
single client: its value stays, and is what all others find.
-/

namespace Xbpf

namespace Collections

open Runs Maps HashMap

namespace MapProg

variable {R S : Type} {P : Syscall → Prop}

theorem only_bind {p : MapProg R} {f : R → MapProg S} (hp : p.run.run.Only P)
    (hf : ∀ r, (f r).run.run.Only P) : (p >>= f).run.run.Only P := by
  rw [run_bind]
  refine hp.bind fun r => ?_
  rcases r with _ | err | r
  · trivial
  · trivial
  · exact hf r

theorem only_pure (r : R) : (pure r : MapProg R).run.run.Only P :=
  trivial

theorem only_map {p : MapProg R} (hp : p.run.run.Only P) (f : R → S) :
    (f <$> p).run.run.Only P := by
  refine Prog.Only.bind hp fun r => ?_
  rcases r with _ | _ | _ <;> trivial

theorem only_outcome {p : MapProg R} (hp : p.run.run.Only P) :
    (outcome p).run.run.Only P := by
  rw [run_outcome]
  exact hp.bind fun r => trivial

end MapProg

section Calls

variable {κ K V : Type} [Pod K] [Pod V] [DecidableEq K]

/-- The call stored a value under the key, which was not there. -/
def claims (key : K) : Call K V → Option (Except Error (Answer V)) → Bool
  | .insertNew k _, some (.ok (.flag true)) => k = key
  | _, _ => false

/-- The call does not change the key unless it is not there. -/
def Call.Spares (key : K) : Call K V → Prop
  | get _ => True
  | containsKey _ => True
  | insertNew _ _ => True
  | call => call.key ≠ key

omit [DecidableEq K] in
def stored (key : K) (value : V) : Made κ Syscall Syscall.Reply → Prop
  | ⟨_, .update k v flag, reply, _⟩ =>
      k = podBytes key ∧ v = podBytes value ∧ flag = .noExist ∧ reply = .ok ()
  | _ => False

variable (V) in
def claimed (key : K) : Made κ Syscall Syscall.Reply → Bool
  | ⟨_, .update k v flag, reply, _⟩ =>
      match reply with
      | .ok () => k = podBytes key && v.length = Pod.size V && flag = .noExist
      | .error _ => false
  | _ => false

omit [DecidableEq K] in
variable (V) in
def met (key : K) : Made κ Syscall Syscall.Reply → Prop
  | ⟨_, .update k v flag, reply, _⟩ =>
      k = podBytes key ∧ v.length = Pod.size V ∧ flag = .noExist ∧
        ∃ err, reply = .error err ∧ err.kind = .alreadyExists
  | _ => False

variable (V) in
def SparesKey (key : K) : Syscall → Prop
  | .lookup _ => True
  | .update k v flag =>
      v.length = Pod.size V ∧ ∃ key' : K, k = podBytes key' ∧ (key' = key → flag = .noExist)
  | .delete k => ∃ key' : K, k = podBytes key' ∧ key' ≠ key

end Calls

namespace Client

open MapProg

variable {κ K V : Type} [Pod K] [Pod V]

/-- Whoever is told that its value was stored has stored it, and whoever is told that it was
not has found the key. -/
theorem ensures_insertNew (key : K) (value : V) :
    (insertNew key value).run.run.Ensures κ fun made r =>
      (r = some (.ok true) → ∃ m ∈ made, stored key value m) ∧
        (r = some (.ok false) → ∃ m ∈ made, met V key m) := by
  rw [insertNew, MapProg.run_bind, run_outcome]
  refine .call fun pre reply post => ?_
  rcases reply with err | ⟨⟩
  · show (if err.kind = .alreadyExists then pure false else throw err :
      MapProg Bool).run.run.Ensures κ _
    by_cases hkind : err.kind = .alreadyExists
    · rw [if_pos hkind]
      refine .ret ⟨fun h => (by cases h), fun _ => ⟨_, List.mem_singleton_self _, ?_⟩⟩
      exact ⟨rfl, length_podBytes value, rfl, err, rfl, hkind⟩
    · rw [if_neg hkind]
      exact .ret ⟨fun h => (by cases h), fun h => (by cases h)⟩
  · refine .ret ⟨fun _ => ⟨_, List.mem_singleton_self _, ?_⟩, fun h => (by cases h)⟩
    exact ⟨rfl, rfl, rfl, rfl⟩

theorem claimed_of_stored {key : K} {value : V} {m : Made κ Syscall Syscall.Reply}
    (h : stored key value m) : claimed V key m = true := by
  rcases m with ⟨pre, _ | ⟨k, v, flag⟩ | _, reply, post⟩
  · cases h
  · obtain ⟨rfl, rfl, rfl, rfl⟩ := h
    simp [claimed, length_podBytes]
  · cases h

/-- A call that spares a key only makes system calls that do. -/
theorem only_sparesKey {key : K} {call : Call K V} (h : call.Spares key) :
    (prog call).run.run.Only (SparesKey V key) := by
  have hget : ∀ key' : K, (get key' : MapProg (Option V)).run.run.Only (SparesKey V key) := by
    intro key'
    refine only_bind ⟨trivial, fun _ => trivial⟩ fun bytes => ?_
    cases bytes with
    | none => trivial
    | some bytes =>
        refine only_map ?_ some
        trivial
  have hupdate : ∀ (key' : K) (value : V) flag, (key' = key → flag = .noExist) →
      (MapProg.update (podBytes key') (podBytes value) flag).run.run.Only
        (SparesKey V key) := fun key' value flag hflag =>
    ⟨⟨length_podBytes value, key', rfl, hflag⟩, fun _ => trivial⟩
  have hdelete : ∀ key' : K, key' ≠ key →
      (MapProg.delete (podBytes key')).run.run.Only (SparesKey V key) := fun key' hne =>
    ⟨⟨key', rfl, hne⟩, fun _ => trivial⟩
  cases call with
  | get key' => exact only_map (hget key') _
  | containsKey key' => exact only_map (only_bind (hget key') fun value => only_pure value.isSome) _
  | insert key' value =>
      refine only_map (only_bind (hget key') fun old => only_bind ?_ fun _ => only_pure old) _
      exact hupdate key' value .any fun heq => absurd heq h
  | update key' value =>
      exact only_map (hupdate key' value .any fun heq => absurd heq h) _
  | insertNew key' value =>
      refine only_map (only_bind (only_outcome (hupdate key' value .noExist fun _ => rfl))
        fun r => ?_) _
      rcases r with err | ⟨⟩
      · show (if err.kind = .alreadyExists then pure false else throw err :
          MapProg Bool).run.run.Only _
        split <;> trivial
      · trivial
  | replace key' value =>
      refine only_map (only_bind (only_outcome (hupdate key' value .exist
        fun heq => absurd heq h)) fun r => ?_) _
      rcases r with err | ⟨⟩
      · show (if err.kind = .notFound then pure false else throw err :
          MapProg Bool).run.run.Only _
        split <;> trivial
      · trivial
  | remove key' =>
      refine only_map (only_bind (hget key') fun old => ?_) _
      cases old with
      | none => exact only_pure none
      | some old => exact only_bind (hdelete key' h) fun _ => only_pure (some old)
  | delete key' => exact only_map (hdelete key' h) _

theorem ensures_told (key : K) (call : Call K V) :
    (prog call).run.run.Ensures κ fun made r => ∀ value, call = .insertNew key value →
      (r = some (.ok (.flag true)) → ∃ m ∈ made, stored key value m) ∧
        (r = some (.ok (.flag false)) → ∃ m ∈ made, met V key m) := by
  cases call with
  | insertNew key' value =>
      refine ensures_map ((ensures_insertNew key' value).mono fun made r h value' heq => ?_)
      cases heq
      refine ⟨fun hr => h.1 ?_, fun hr => h.2 ?_⟩
      · rcases r with _ | _ | _ <;> cases hr
        rfl
      · rcases r with _ | _ | _ <;> cases hr
        rfl
  | _ => exact fun made r _ value heq => nomatch heq

variable [DecidableEq K]

theorem ensures_claimed (key : K) (call : Call K V) :
    (prog call).run.run.Ensures κ fun made r =>
      claims key call r = true → ∃ m ∈ made, claimed V key m = true := by
  cases call with
  | insertNew key' value =>
      refine ensures_map ((ensures_insertNew key' value).mono fun made r h hr => ?_)
      rcases r with _ | _ | _ | _ <;> simp [claims, Except.map] at hr
      subst hr
      obtain ⟨m, hm, hstored⟩ := h.1 rfl
      exact ⟨m, hm, claimed_of_stored hstored⟩
  | _ =>
      refine fun made r _ hr => ?_
      simp [claims] at hr

end Client

section Atomic

variable {κ K V : Type} [MapHandle κ] [Pod K] [Pod V] {m : Made κ Syscall Syscall.Reply}
  {key : K}

theorem update_cases {h : κ} (hfits : Fits K V h) (key : K) {v : List UInt8}
    (hlen : v.length = Pod.size V) (flag : UpdateFlag) :
    (∃ hroom, (MapHandle.contents h).update flag (podBytes key) v =
        .ok ((MapHandle.contents h).put (podBytes key) v hroom) ∧
      (MapHandle.update h (podBytes key) v flag).1 = .ok () ∧
      (MapHandle.contents (MapHandle.update h (podBytes key) v flag).2).get =
        Function.update (MapHandle.contents h).get (podBytes key) (some v)) ∨
      ∃ why err, (MapHandle.contents h).update flag (podBytes key) v = .error why ∧
        (MapHandle.update h (podBytes key) v flag).1 = .error err ∧ Reports why err.kind ∧
        MapHandle.contents (MapHandle.update h (podBytes key) v flag).2 =
          MapHandle.contents h := by
  have hkey : (podBytes key).length = MapHandle.keySize h := by
    rw [length_podBytes, hfits.keySize]
  have hvalue : v.length = MapHandle.valueSize h := by rw [hlen, hfits.valueSize]
  cases hupdate : (MapHandle.contents h).update flag (podBytes key) v with
  | ok n =>
      obtain ⟨hroom, rfl⟩ := BoundedMap.of_update_eq_ok hupdate
      obtain ⟨hreply, hcontents⟩ := MapHandle.update_ok h _ _ flag _ hkey hvalue hupdate
      exact .inl ⟨hroom, rfl, hreply, by rw [hcontents, BoundedMap.get_put]⟩
  | error why =>
      obtain ⟨⟨err, hreply, hreports⟩, hcontents⟩ :=
        MapHandle.update_error h _ _ flag why hkey hvalue hupdate
      exact .inr ⟨why, err, rfl, hreply, hreports, hcontents⟩

theorem noExist_cases {h : κ} (hfits : Fits K V h) (key : K) {v : List UInt8}
    (hlen : v.length = Pod.size V) :
    (present key h = false ∧ (MapHandle.update h (podBytes key) v .noExist).1 = .ok () ∧
        (MapHandle.contents (MapHandle.update h (podBytes key) v .noExist).2).get =
          Function.update (MapHandle.contents h).get (podBytes key) (some v)) ∨
      ∃ err, (MapHandle.update h (podBytes key) v .noExist).1 = .error err ∧
        (err.kind = .alreadyExists → present key h = true) ∧
        MapHandle.contents (MapHandle.update h (podBytes key) v .noExist).2 =
          MapHandle.contents h := by
  rcases update_cases hfits key hlen .noExist with
    ⟨hroom, hupdate, hreply, hget⟩ | ⟨why, err, hupdate, hreply, hreports, hcontents⟩
  · refine .inl ⟨?_, hreply, hget⟩
    rw [BoundedMap.update_noExist] at hupdate
    split at hupdate
    · cases hupdate
    · rename_i habsent
      exact Bool.eq_false_of_not_eq_true habsent
  · refine .inr ⟨err, hreply, fun hkind => ?_, hcontents⟩
    rw [BoundedMap.update_noExist] at hupdate
    split at hupdate
    · assumption
    · split at hupdate
      · cases hupdate
      · cases hupdate
        exact absurd hkind hreports.1

theorem of_stored {value : V} (hstored : stored key value m) (hfits : Fits K V m.pre)
    (hact : Syscall.act m.action m.pre = (m.reply, m.post)) :
    (MapHandle.contents m.post).get (podBytes key) = some (podBytes value) := by
  rcases m with ⟨pre, _ | ⟨k, v, flag⟩ | _, reply, post⟩
  · cases hstored
  · obtain ⟨rfl, rfl, rfl, rfl⟩ := hstored
    have hupdate : MapHandle.update pre (podBytes key) (podBytes value) .noExist =
        (.ok (), post) := hact
    rcases noExist_cases hfits key (length_podBytes value) with
      ⟨_, _, hget⟩ | ⟨err, hreply, _⟩
    · rw [hupdate] at hget
      rw [hget, Function.update_self]
    · rw [hupdate] at hreply
      cases hreply
  · cases hstored

/-- A key that was claimed was not there before, and is there after the call. -/
theorem rises_of_claimed (hclaimed : claimed V key m = true) (hfits : Fits K V m.pre)
    (hact : Syscall.act m.action m.pre = (m.reply, m.post)) :
    Pool.rises (present key) m = true := by
  rcases m with ⟨pre, _ | ⟨k, v, flag⟩ | _, reply, post⟩
  · cases hclaimed
  · rcases reply with err | ⟨⟩
    · cases hclaimed
    · simp only [claimed, Bool.and_eq_true, decide_eq_true_eq] at hclaimed
      obtain ⟨⟨rfl, hlen⟩, rfl⟩ := hclaimed
      have hupdate : MapHandle.update pre (podBytes key) v .noExist = (.ok (), post) := hact
      rcases noExist_cases hfits key hlen with ⟨habsent, _, hget⟩ | ⟨err, hreply, _⟩
      · rw [hupdate] at hget
        have hpost : present key post = true := by
          rw [present, hget, Function.update_self, Option.isSome_some]
        exact Bool.and_eq_true_iff.mpr ⟨by rw [habsent]; rfl, hpost⟩
      · rw [hupdate] at hreply
        cases hreply
  · cases hclaimed

theorem present_of_met (hmet : met V key m) (hfits : Fits K V m.pre)
    (hact : Syscall.act m.action m.pre = (m.reply, m.post)) : present key m.pre = true := by
  rcases m with ⟨pre, _ | ⟨k, v, flag⟩ | _, reply, post⟩
  · cases hmet
  · obtain ⟨rfl, hlen, rfl, err, rfl, hkind⟩ := hmet
    have hupdate : MapHandle.update pre (podBytes key) v .noExist = (.error err, post) := hact
    rcases noExist_cases hfits key hlen with ⟨_, hreply, _⟩ | ⟨err', hreply, hpresent, _⟩
    · rw [hupdate] at hreply
      cases hreply
    · rw [hupdate] at hreply
      cases hreply
      exact hpresent hkind
  · cases hmet

theorem get_of_sparesKey (hspares : SparesKey V key m.action) (hfits : Fits K V m.pre)
    (hact : Syscall.act m.action m.pre = (m.reply, m.post))
    (hpre : present key m.pre = true) :
    (MapHandle.contents m.post).get (podBytes key) =
      (MapHandle.contents m.pre).get (podBytes key) := by
  rcases m with ⟨pre, _ | ⟨k, v, flag⟩ | k, reply, post⟩
  · obtain rfl : pre = post := (Prod.mk.inj hact).2
    rfl
  · obtain ⟨hlen, key', rfl, hflag⟩ := hspares
    have hpost : (MapHandle.update pre (podBytes key') v flag).2 = post :=
      congrArg Prod.snd hact
    rcases update_cases hfits key' hlen flag with
      ⟨hroom, hupdate, _, hget⟩ | ⟨_, _, _, _, _, hcontents⟩
    · rw [hpost] at hget
      rw [hget, Function.update_of_ne]
      intro heq
      obtain rfl := podBytes_injective heq
      have hthere : ((MapHandle.contents pre).get (podBytes key)).isSome = true := hpre
      rw [hflag rfl, BoundedMap.update_noExist, if_pos hthere] at hupdate
      cases hupdate
    · rw [hpost] at hcontents
      rw [hcontents]
  · obtain ⟨key', rfl, hne⟩ := hspares
    have hdelete : MapHandle.delete pre (podBytes key') = (reply, post) := hact
    have hlen : (podBytes key').length = MapHandle.keySize pre := by
      rw [length_podBytes, hfits.keySize]
    by_cases hthere : ((MapHandle.contents pre).get (podBytes key')).isSome = true
    · obtain ⟨_, hcontents⟩ := MapHandle.delete_ok pre _ _ hlen
        (if_pos hthere : (MapHandle.contents pre).delete (podBytes key') = _)
      rw [hdelete] at hcontents
      rw [hcontents, BoundedMap.get_erase, Function.update_of_ne]
      exact fun heq => hne (podBytes_injective heq).symm
    · obtain ⟨_, hcontents⟩ := MapHandle.delete_error pre _ _ hlen
        (if_neg hthere : (MapHandle.contents pre).delete (podBytes key') = _)
      rw [hdelete] at hcontents
      rw [hcontents]

end Atomic

section Spared

variable {κ K V : Type} [MapHandle κ] [Pod K] {key : K} {h₀ : κ} {s : Clients κ K V}

def Spared (key : K) (s : Clients κ K V) : Prop :=
  ∀ m ∈ s.made, present key m.pre = true →
    (MapHandle.contents m.post).get (podBytes key) =
      (MapHandle.contents m.pre).get (podBytes key)

theorem Spared.falls_eq_false (h : Spared key s) {m : Made κ Syscall Syscall.Reply}
    (hm : m ∈ s.made) : Pool.falls (present key) m = false := by
  refine Bool.eq_false_of_not_eq_true fun hfalls => ?_
  obtain ⟨hpre, hpost⟩ := Bool.and_eq_true_iff.mp hfalls
  have habsent : present key m.post = present key m.pre := by
    rw [present, h m hm hpre, ← present]
  rw [habsent, hpre] at hpost
  cases hpost

variable [Pod V]

/-- The value that a key has after some system call is its value now. -/
theorem Spared.get_now (h : Spared key s)
    (hrun : Relation.ReflTransGen Clients.Step (Pool.start h₀) s)
    {m : Made κ Syscall Syscall.Reply} (hm : m ∈ s.made) {bytes : List UInt8}
    (hpost : (MapHandle.contents m.post).get (podBytes key) = some bytes) :
    (MapHandle.contents s.now).get (podBytes key) = some bytes := by
  let has := fun k : κ => decide ((MapHandle.contents k).get (podBytes key) = some bytes)
  refine of_decide_eq_true (Pool.kept_after has hrun (fun m hm => ?_) hm (decide_eq_true hpost))
  refine Bool.eq_false_of_not_eq_true fun hfalls => ?_
  obtain ⟨hpre, hpost⟩ := Bool.and_eq_true_iff.mp hfalls
  have hthere := of_decide_eq_true hpre
  have hsame : has m.post = has m.pre := by
    show decide _ = decide _
    rw [h m hm (by rw [present, hthere, Option.isSome_some])]
  rw [hsame, hpre] at hpost
  cases hpost

theorem Spared.get_now_of_pre (h : Spared key s)
    (hrun : Relation.ReflTransGen Clients.Step (Pool.start h₀) s)
    {m : Made κ Syscall Syscall.Reply} (hm : m ∈ s.made) {bytes : List UInt8}
    (hpre : (MapHandle.contents m.pre).get (podBytes key) = some bytes) :
    (MapHandle.contents s.now).get (podBytes key) = some bytes := by
  refine h.get_now hrun hm ?_
  rw [h m hm (by rw [present, hpre, Option.isSome_some]), hpre]

end Spared

section Election

variable {κ K V : Type} [MapHandle κ] [Pod K] [Pod V] [DecidableEq K] {h₀ : κ}
  {s : Clients κ K V}

end Election

end Collections

end Xbpf
