import Mathlib.Logic.Function.Basic
import Xbpf.Build.Headers
import Xbpf.Bytes.Memory
import Xbpf.Runs.Trace

/-!
# Dumping the kernel BTF side by side

Any number of calls of `dump_kernel_btf` share a directory, from build scripts that run
side by side or one after the other. A call skips the dump if the header is there, and
otherwise opens it, which creates or truncates it, and writes its output in pieces.
It can fail or be killed before every step of its own. Next to the header the state
remembers the outputs of all successful dumps.

A call can therefore return over a part of a header, but not if no call is killed while it
writes, none returns while another one writes, and those that write at the same time dump
the same.
-/

namespace Xbpf

namespace Build

open Bytes Files Runs

inductive BtfPc
  | checkingExists
  | runningVersion
  | dumping
  | creatingDir
  | creatingFile
  | writing
  | returning
  | returned
  | stopped
  deriving DecidableEq, Repr

/-- A call, with the output of its dump and how much of it is written. -/
structure BtfCall where
  pc : BtfPc
  output : List UInt8
  written : ℕ

structure BtfDir where
  dirExists : Bool
  vmlinux : Option (List UInt8)
  calls : ℕ → BtfCall
  dumps : List (List UInt8)

inductive BtfStep
  | checkExists
  | version (found : Bool)
  | dump (output : Option (List UInt8))
  | createDirAll (ok : Bool)
  | create (ok : Bool)
  | write (n : ℕ)
  | writeDone
  | ret
  | stop
  deriving DecidableEq, Repr

/-- The content of a file after bytes were written at an offset. What lies between the
end of the file and the offset is zero. -/
def writeAt (content : List UInt8) (offset : ℕ) (bs : List UInt8) : List UInt8 :=
  overwrite (content ++ List.replicate (offset + bs.length - content.length) 0) offset bs

theorem getElem?_writeAt (content bs : List UInt8) (offset k : ℕ) :
    (writeAt content offset bs)[k]? =
      if offset ≤ k ∧ k < offset + bs.length then bs[k - offset]?
      else (content ++ List.replicate (offset + bs.length - content.length) 0)[k]? :=
  getElem?_overwrite _ _ (by rw [List.length_append, List.length_replicate]; omega) k

theorem length_writeAt (content bs : List UInt8) (offset : ℕ) :
    (writeAt content offset bs).length = max content.length (offset + bs.length) := by
  rw [writeAt, length_overwrite, List.length_append, List.length_replicate]
  · omega
  · rw [List.length_append, List.length_replicate]
    omega

def BtfPc.hasOutput : BtfPc → Bool
  | creatingDir | creatingFile | writing => true
  | _ => false

namespace BtfDir

def start (dirExists : Bool) : BtfDir where
  dirExists := dirExists
  vmlinux := none
  calls _ := ⟨.checkingExists, [], 0⟩
  dumps := []

def setCall (s : BtfDir) (i : ℕ) (call : BtfCall) : BtfDir :=
  { s with calls := Function.update s.calls i call }

def goTo (s : BtfDir) (i : ℕ) (pc : BtfPc) : BtfDir :=
  s.setCall i { s.calls i with pc }

def truncated (s : BtfDir) (i : ℕ) : BtfDir :=
  { s with vmlinux := some [] }.setCall i { s.calls i with pc := .writing, written := 0 }

def extended (s : BtfDir) (i n : ℕ) : BtfDir :=
  let call := s.calls i
  let bs := window call.output call.written n
  let vmlinux := s.vmlinux.map fun content => writeAt content call.written bs
  { s with vmlinux }.setCall i { call with written := call.written + n }

/-- The state after a step of a call, absent if the step is not possible. -/
def next (s : BtfDir) (i : ℕ) : BtfStep → Option BtfDir
  | .checkExists =>
      if (s.calls i).pc = .checkingExists then
        some (s.goTo i (if s.vmlinux.isSome then .returning else .runningVersion))
      else none
  | .version found =>
      if (s.calls i).pc = .runningVersion then
        some (s.goTo i (if found then .dumping else .stopped))
      else none
  | .dump output =>
      if (s.calls i).pc = .dumping then
        match output with
        | none => some (s.goTo i .stopped)
        | some output =>
            some ({ s with dumps := output :: s.dumps }.setCall i ⟨.creatingDir, output, 0⟩)
      else none
  | .createDirAll ok =>
      if (s.calls i).pc = .creatingDir then
        if ok then some ({ s with dirExists := true }.goTo i .creatingFile)
        else some (s.goTo i .stopped)
      else none
  | .create ok =>
      if (s.calls i).pc = .creatingFile then
        if ok ∧ s.dirExists then
          some (s.truncated i)
        else some (s.goTo i .stopped)
      else none
  | .write n =>
      if (s.calls i).pc = .writing ∧ 0 < n ∧
          (s.calls i).written + n ≤ (s.calls i).output.length then
        some (s.extended i n)
      else none
  | .writeDone =>
      if (s.calls i).pc = .writing ∧ (s.calls i).written = (s.calls i).output.length then
        some (s.goTo i .returning)
      else none
  | .ret => if (s.calls i).pc = .returning then some (s.goTo i .returned) else none
  | .stop =>
      if (s.calls i).pc ≠ .returned then some (s.goTo i .stopped) else none

def Step (s : BtfDir) (a : ℕ × BtfStep) (t : BtfDir) : Prop :=
  s.next a.1 a.2 = some t

/-- Whenever a call returns, the header is the whole output of a successful dump. -/
def ReturnsComplete (dirExists : Bool) (as : List (ℕ × BtfStep)) : Prop :=
  ∀ before i after t, as = before ++ (i, .ret) :: after → Trace Step (start dirExists) before t →
    ∃ content, t.vmlinux = some content ∧ content ∈ t.dumps

/-- Which steps of a call the others admit. A call is not stopped between creating the
header and the end of its write, and does not return while another one is there. A call
only creates the header while those that are writing it write the same. -/
def Undisturbed (s : BtfDir) : ℕ × BtfStep → Prop
  | (i, .stop) => (s.calls i).pc ≠ .writing
  | (_, .ret) => ∀ j, (s.calls j).pc ≠ .writing
  | (i, .create _) => ∀ j, (s.calls j).pc = .writing → (s.calls j).output = (s.calls i).output
  | _ => True

def QuietStep (s : BtfDir) (a : ℕ × BtfStep) (t : BtfDir) : Prop :=
  Step s a t ∧ s.Undisturbed a

/-- The header is the output of a dump that all who write it have, or one of these has
written all of it so far. -/
structure Holds (s : BtfDir) (content output : List UInt8) : Prop where
  dumped : output ∈ s.dumps
  same : ∀ i, (s.calls i).pc = .writing → (s.calls i).output = output
  length_le : content.length ≤ output.length
  agrees : content = output ∨ ∃ i, (s.calls i).pc = .writing ∧
    ∀ k < (s.calls i).written, content[k]? = output[k]?

structure Inv (s : BtfDir) : Prop where
  dumped : ∀ i, (s.calls i).pc.hasOutput = true → (s.calls i).output ∈ s.dumps
  written_le : ∀ i, (s.calls i).pc = .writing → (s.calls i).written ≤ (s.calls i).output.length
  present : ∀ i, (s.calls i).pc = .writing ∨ (s.calls i).pc = .returning → s.vmlinux ≠ none
  header : ∀ content, s.vmlinux = some content → ∃ output, s.Holds content output

section Steps

variable {s t : BtfDir} {i j : ℕ} {pc : BtfPc}

@[simp] theorem calls_setCall_self (s : BtfDir) (i : ℕ) (call : BtfCall) :
    (s.setCall i call).calls i = call :=
  Function.update_self ..

theorem calls_setCall_of_ne (s : BtfDir) (call : BtfCall) (h : j ≠ i) :
    (s.setCall i call).calls j = s.calls j :=
  Function.update_of_ne h ..

theorem Inv.start (dirExists : Bool) : (start dirExists).Inv where
  dumped := fun _ h => by cases h
  written_le := fun _ h => by cases h
  present := fun _ h => by rcases h with h | h <;> cases h
  header := fun _ h => by cases h

/-- A call goes on, while the header may change. -/
theorem Inv.of_setCall (h : s.Inv) (hcalls : ∀ k, k ≠ i → t.calls k = s.calls k)
    (hdumps : ∀ output ∈ s.dumps, output ∈ t.dumps)
    (hheader : s.vmlinux ≠ none → t.vmlinux ≠ none)
    (houtput : (t.calls i).pc.hasOutput = true → (t.calls i).output ∈ t.dumps)
    (hwritten : (t.calls i).pc = .writing → (t.calls i).written ≤ (t.calls i).output.length)
    (hpresent : (t.calls i).pc = .writing ∨ (t.calls i).pc = .returning → t.vmlinux ≠ none)
    (hholds : ∀ content, t.vmlinux = some content → ∃ output, t.Holds content output) :
    t.Inv := by
  refine ⟨fun k hk => ?_, fun k hk => ?_, fun k hk => ?_, hholds⟩
  · by_cases hki : k = i
    · subst hki
      exact houtput hk
    · rw [hcalls k hki] at hk ⊢
      exact hdumps _ (h.dumped k hk)
  · by_cases hki : k = i
    · subst hki
      exact hwritten hk
    · rw [hcalls k hki] at hk ⊢
      exact h.written_le k hk
  · by_cases hki : k = i
    · subst hki
      exact hpresent hk
    · rw [hcalls k hki] at hk
      exact hheader (h.present k hk)

/-- A step of a call that is not writing is none of the business of those that are. -/
theorem Holds.of_idle {content output : List UInt8} (h : s.Holds content output)
    (hcalls : ∀ k, k ≠ i → t.calls k = s.calls k)
    (hdumps : ∀ output ∈ s.dumps, output ∈ t.dumps) (hidle : (s.calls i).pc ≠ .writing)
    (hidle' : (t.calls i).pc ≠ .writing) : t.Holds content output := by
  refine ⟨hdumps _ h.dumped, fun k hk => ?_, h.length_le, h.agrees.imp_right ?_⟩
  · have hki : k ≠ i := fun hki => hidle' (hki ▸ hk)
    rw [hcalls k hki] at hk ⊢
    exact h.same k hk
  · rintro ⟨k, hk, hagrees⟩
    have hki : k ≠ i := fun hki => hidle (hki ▸ hk)
    refine ⟨k, ?_, ?_⟩
    · rwa [hcalls k hki]
    · rwa [hcalls k hki]

theorem Inv.goTo (h : s.Inv) (hidle : (s.calls i).pc ≠ .writing) (hpc : pc ≠ .writing)
    (houtput : pc.hasOutput = true → (s.calls i).pc.hasOutput = true)
    (hpresent : pc = .returning → s.vmlinux ≠ none) : (s.goTo i pc).Inv := by
  have hself : (s.goTo i pc).calls i = { s.calls i with pc } := calls_setCall_self ..
  have hcalls : ∀ k, k ≠ i → (s.goTo i pc).calls k = s.calls k :=
    fun k hk => calls_setCall_of_ne s _ hk
  refine h.of_setCall hcalls (fun _ ho => ho) (fun hs => hs) ?_ ?_ ?_ ?_
  · rw [hself]
    exact fun hpc => h.dumped i (houtput hpc)
  · rw [hself]
    exact fun hwriting => absurd hwriting hpc
  · rw [hself]
    exact fun hnext => hpresent (hnext.resolve_left hpc)
  · intro content hcontent
    obtain ⟨output, hholds⟩ := h.header content hcontent
    exact ⟨output, hholds.of_idle hcalls (fun _ ho => ho) hidle (by rwa [hself])⟩

theorem Inv.goTo_of_not (h : s.Inv) (hidle : (s.calls i).pc ≠ .writing)
    (houtput : pc.hasOutput = false) (hreturning : pc ≠ .returning) : (s.goTo i pc).Inv := by
  refine h.goTo hidle (fun hpc => ?_) (fun hpc => ?_) fun hpc => absurd hpc hreturning
  · rw [hpc] at houtput
    cases houtput
  · rw [houtput] at hpc
    cases hpc

theorem Inv.setDirExists (h : s.Inv) : { s with dirExists := true }.Inv :=
  ⟨h.dumped, h.written_le, h.present, fun content hcontent =>
    let ⟨output, hholds⟩ := h.header content hcontent
    ⟨output, hholds.dumped, hholds.same, hholds.length_le, hholds.agrees⟩⟩

theorem Inv.dump (h : s.Inv) (hidle : (s.calls i).pc ≠ .writing) (output : List UInt8) :
    ({ s with dumps := output :: s.dumps }.setCall i ⟨.creatingDir, output, 0⟩).Inv := by
  refine h.of_setCall (fun k hk => calls_setCall_of_ne _ _ hk)
    (fun _ ho => List.mem_cons_of_mem _ ho) (fun hs => hs) ?_ ?_ ?_ ?_
  · rw [calls_setCall_self]
    exact fun _ => List.mem_cons_self
  · rw [calls_setCall_self]
    simp
  · rw [calls_setCall_self]
    simp
  · intro content hcontent
    obtain ⟨output', hholds⟩ := h.header content hcontent
    refine ⟨output', hholds.of_idle (fun k hk => calls_setCall_of_ne _ _ hk)
      (fun _ ho => List.mem_cons_of_mem _ ho) hidle ?_⟩
    rw [calls_setCall_self]
    simp

/-- The call that opens the header has written all of what is there, which is nothing. -/
theorem Inv.truncated (h : s.Inv) (hpc : (s.calls i).pc = .creatingFile)
    (hsame : ∀ j, (s.calls j).pc = .writing → (s.calls j).output = (s.calls i).output) :
    (s.truncated i).Inv := by
  have houtput : (s.calls i).output ∈ s.dumps := h.dumped i (by rw [hpc]; rfl)
  have hself : (s.truncated i).calls i = { s.calls i with pc := .writing, written := 0 } :=
    calls_setCall_self ..
  have hcalls : ∀ k, k ≠ i → (s.truncated i).calls k = s.calls k :=
    fun k hk => calls_setCall_of_ne _ _ hk
  refine h.of_setCall hcalls (fun _ ho => ho) (fun _ hnone => by cases hnone) ?_ ?_
    (fun _ hnone => by cases hnone) ?_
  · rw [hself]
    exact fun _ => houtput
  · rw [hself]
    exact fun _ => Nat.zero_le _
  · intro content hcontent
    obtain rfl : [] = content := Option.some_inj.mp hcontent
    refine ⟨(s.calls i).output, houtput, fun k hk => ?_, Nat.zero_le _, .inr ⟨i, ?_, ?_⟩⟩
    · by_cases hki : k = i
      · rw [hki, hself]
      · rw [hcalls k hki] at hk ⊢
        exact hsame k hk
    · rw [hself]
    · rw [hself]
      exact fun k hk => absurd hk (Nat.not_lt_zero k)

theorem getElem?_writeAt_window {content output : List UInt8} {offset n k : ℕ}
    (hle : offset + n ≤ output.length) (hk : k < output.length)
    (h : content[k]? = output[k]? ∨ offset ≤ k ∧ k < offset + n) :
    (writeAt content offset (window output offset n))[k]? = output[k]? := by
  have hlen : (window output offset n).length = n := by
    rw [length_window]
    omega
  rw [getElem?_writeAt, hlen]
  split
  · rename_i hin
    rw [getElem?_window, if_pos (by omega), Nat.add_sub_cancel' hin.1]
  · rename_i hout
    have hagrees := h.resolve_right hout
    have hk' : k < content.length := by
      by_contra hnot
      rw [List.getElem?_eq_none (Nat.le_of_not_lt hnot), eq_comm,
        List.getElem?_eq_none_iff] at hagrees
      omega
    rw [List.getElem?_append_left hk', hagrees]

/-- A write of a call that has the output of the header keeps what is there of it, and what
that call has written. -/
theorem Holds.extended {content output : List UInt8} (h : s.Holds content output) {n : ℕ}
    (hpc : (s.calls i).pc = .writing)
    (hwritten : ∀ j, (s.calls j).pc = .writing → (s.calls j).written ≤ output.length)
    (hle : (s.calls i).written + n ≤ output.length) :
    (s.extended i n).Holds
      (writeAt content (s.calls i).written (window output (s.calls i).written n)) output := by
  have hself : (s.extended i n).calls i =
      { s.calls i with written := (s.calls i).written + n } := calls_setCall_self ..
  have hcalls : ∀ k, k ≠ i → (s.extended i n).calls k = s.calls k :=
    fun k hk => calls_setCall_of_ne _ _ hk
  have hlength : (writeAt content (s.calls i).written
      (window output (s.calls i).written n)).length ≤ output.length := by
    rw [length_writeAt, length_window]
    have := h.length_le
    omega
  refine ⟨h.dumped, fun k hk => ?_, hlength, ?_⟩
  · by_cases hki : k = i
    · rw [hki, hself]
      exact h.same i hpc
    · rw [hcalls k hki] at hk ⊢
      exact h.same k hk
  · rcases h.agrees with rfl | ⟨j, hj, hagrees⟩
    · left
      refine List.ext_getElem? fun k => ?_
      by_cases hk : k < content.length
      · exact getElem?_writeAt_window hle hk (.inl rfl)
      · rw [List.getElem?_eq_none (by omega), List.getElem?_eq_none (by omega)]
    · right
      have hj' := hwritten j hj
      refine ⟨j, ?_, fun k hk => getElem?_writeAt_window hle ?_ ?_⟩
      · by_cases hji : j = i
        · rw [hji, hself]
          exact hpc
        · rwa [hcalls j hji]
      · by_cases hji : j = i
        · rw [hji, hself] at hk
          exact Nat.lt_of_lt_of_le hk hle
        · rw [hcalls j hji] at hk
          omega
      · by_cases hji : j = i
        · subst hji
          rw [hself] at hk
          by_cases hk' : k < (s.calls j).written
          · exact .inl (hagrees k hk')
          · exact .inr ⟨Nat.le_of_not_lt hk', hk⟩
        · rw [hcalls j hji] at hk
          exact .inl (hagrees k hk)

theorem Inv.extended (h : s.Inv) {n : ℕ} (hpc : (s.calls i).pc = .writing)
    (hle : (s.calls i).written + n ≤ (s.calls i).output.length) : (s.extended i n).Inv := by
  obtain ⟨content, hcontent⟩ := Option.ne_none_iff_exists'.mp (h.present i (.inl hpc))
  obtain ⟨output, hholds⟩ := h.header content hcontent
  have hsame := hholds.same i hpc
  have hwritten : ∀ j, (s.calls j).pc = .writing → (s.calls j).written ≤ output.length :=
    fun j hj => hholds.same j hj ▸ h.written_le j hj
  refine h.of_setCall (fun k hk => calls_setCall_of_ne _ _ hk) (fun _ ho => ho) ?_ ?_ ?_ ?_ ?_
  · simp [BtfDir.extended, setCall, hcontent]
  · rw [BtfDir.extended, calls_setCall_self]
    exact fun _ => h.dumped i (by rw [hpc]; rfl)
  · rw [BtfDir.extended, calls_setCall_self]
    exact fun _ => hle
  · simp [BtfDir.extended, setCall, hcontent]
  · intro content' hcontent'
    simp only [BtfDir.extended, setCall, hcontent, Option.map_some, Option.some_inj] at hcontent'
    subst hcontent'
    refine ⟨output, ?_⟩
    rw [hsame]
    exact hholds.extended hpc hwritten (hsame ▸ hle)

theorem eq_of_agrees {content output : List UInt8} (hle : content.length ≤ output.length)
    (h : ∀ k < output.length, content[k]? = output[k]?) : content = output := by
  refine List.ext_getElem? fun k => ?_
  by_cases hk : k < output.length
  · exact h k hk
  · rw [List.getElem?_eq_none (by omega), List.getElem?_eq_none (by omega)]

/-- The header is complete once the call that has written all of it so far is done. -/
theorem Inv.writeDone (h : s.Inv) (hpc : (s.calls i).pc = .writing)
    (hdone : (s.calls i).written = (s.calls i).output.length) : (s.goTo i .returning).Inv := by
  have hself : (s.goTo i .returning).calls i = { s.calls i with pc := .returning } :=
    calls_setCall_self ..
  have hcalls : ∀ k, k ≠ i → (s.goTo i .returning).calls k = s.calls k :=
    fun k hk => calls_setCall_of_ne s _ hk
  refine h.of_setCall hcalls (fun _ ho => ho) (fun hs => hs) ?_ ?_
    (fun _ => h.present i (.inl hpc)) ?_
  · rw [hself]
    exact fun hnot => by cases hnot
  · rw [hself]
    exact fun hnot => by cases hnot
  · intro content hcontent
    obtain ⟨output, hholds⟩ := h.header content hcontent
    refine ⟨output, hholds.dumped, fun k hk => ?_, hholds.length_le, ?_⟩
    · have hki : k ≠ i := by
        rintro rfl
        rw [hself] at hk
        cases hk
      rw [hcalls k hki] at hk ⊢
      exact hholds.same k hk
    · rcases hholds.agrees with heq | ⟨j, hj, hagrees⟩
      · exact .inl heq
      · by_cases hji : j = i
        · subst hji
          rw [hdone, hholds.same j hj] at hagrees
          exact .inl (eq_of_agrees hholds.length_le hagrees)
        · rw [← hcalls j hji] at hj hagrees
          exact .inr ⟨j, hj, hagrees⟩

theorem Inv.step {st : BtfStep} (h : s.Inv) (hu : s.Undisturbed (i, st))
    (hstep : s.next i st = some t) : t.Inv := by
  cases st with
  | checkExists =>
      simp only [next, Option.ite_none_right_eq_some, Option.some_inj] at hstep
      obtain ⟨hpc, rfl⟩ := hstep
      split
      · rename_i hsome
        exact h.goTo (by simp [hpc]) (by simp) (fun hpc => by cases hpc)
          fun _ => Option.isSome_iff_ne_none.mp hsome
      · exact h.goTo_of_not (by simp [hpc]) rfl (by simp)
  | version found =>
      simp only [next, Option.ite_none_right_eq_some, Option.some_inj] at hstep
      obtain ⟨hpc, rfl⟩ := hstep
      cases found <;> exact h.goTo_of_not (by simp [hpc]) rfl (by simp)
  | dump output =>
      simp only [next, Option.ite_none_right_eq_some] at hstep
      obtain ⟨hpc, hstep⟩ := hstep
      cases output with
      | none =>
          cases hstep
          exact h.goTo_of_not (by simp [hpc]) rfl (by simp)
      | some output =>
          cases hstep
          exact h.dump (by simp [hpc]) output
  | createDirAll ok =>
      simp only [next, Option.ite_none_right_eq_some] at hstep
      obtain ⟨hpc, hstep⟩ := hstep
      cases ok with
      | false =>
          cases hstep
          exact h.goTo_of_not (by simp [hpc]) rfl (by simp)
      | true =>
          cases hstep
          exact h.setDirExists.goTo (by simp [hpc]) (by simp)
            (fun _ => by simp [hpc, BtfPc.hasOutput]) (by simp)
  | create ok =>
      simp only [next, Option.ite_none_right_eq_some] at hstep
      obtain ⟨hpc, hstep⟩ := hstep
      split at hstep
      · cases hstep
        exact h.truncated hpc hu
      · cases hstep
        exact h.goTo_of_not (by simp [hpc]) rfl (by simp)
  | write n =>
      simp only [next, Option.ite_none_right_eq_some, Option.some_inj] at hstep
      obtain ⟨⟨hpc, -, hle⟩, rfl⟩ := hstep
      exact h.extended hpc hle
  | writeDone =>
      simp only [next, Option.ite_none_right_eq_some, Option.some_inj] at hstep
      obtain ⟨⟨hpc, hdone⟩, rfl⟩ := hstep
      exact h.writeDone hpc hdone
  | ret =>
      simp only [next, Option.ite_none_right_eq_some, Option.some_inj] at hstep
      obtain ⟨hpc, rfl⟩ := hstep
      exact h.goTo_of_not (by simp [hpc]) rfl (by simp)
  | stop =>
      simp only [next, Option.ite_none_right_eq_some, Option.some_inj] at hstep
      obtain ⟨-, rfl⟩ := hstep
      exact h.goTo_of_not hu rfl (by simp)

theorem Inv.ret (h : s.Inv) (hu : s.Undisturbed (i, .ret)) (hstep : s.next i .ret = some t) :
    ∃ content, s.vmlinux = some content ∧ content ∈ s.dumps := by
  simp only [next, Option.ite_none_right_eq_some] at hstep
  obtain ⟨content, hcontent⟩ := Option.ne_none_iff_exists'.mp (h.present i (.inr hstep.1))
  obtain ⟨output, hholds⟩ := h.header content hcontent
  rcases hholds.agrees with rfl | ⟨j, hj, _⟩
  · exact ⟨content, hcontent, hholds.dumped⟩
  · exact absurd hj (hu j)

end Steps

section Runs

variable {dirExists : Bool} {as : List (ℕ × BtfStep)} {s t u : BtfDir} {a : ℕ × BtfStep}

theorem Step.eq (h : Step s a t) (h' : Step s a u) : t = u :=
  Option.some.inj (h.symm.trans h')

theorem Inv.trace (h : s.Inv) (hrun : Trace QuietStep s as u) : u.Inv :=
  hrun.invariant (fun _ _ _ h hstep => h.step hstep.2 hstep.1) h

/-- No call returns over a partial header in a run whose steps all meet the condition. -/
theorem returnsComplete_of_undisturbed (hrun : Trace QuietStep (start dirExists) as u) :
    ReturnsComplete dirExists as := by
  rintro before i after t rfl hbefore
  obtain ⟨t', _, hquiet, hstep, -⟩ := hrun.split_cons
  have hbefore' : Trace Step (start dirExists) before t' := hquiet.mono fun _ _ _ h => h.1
  obtain rfl := hbefore.eq_of_deterministic (fun _ _ _ _ h h' => h.eq h') hbefore'
  exact ((Inv.start dirExists).trace hquiet).ret hstep.2 hstep.1

/-- Two calls that overlap dump the same and both return, and a third one finds the
header. -/
theorem returnsComplete_overlapping : ReturnsComplete false
    [(0, .checkExists), (1, .checkExists), (0, .version true), (1, .version true),
      (0, .dump (some [97, 98])), (1, .dump (some [97, 98])), (0, .createDirAll true),
      (1, .createDirAll true), (0, .create true), (0, .write 1), (1, .create true),
      (0, .write 1), (0, .writeDone), (2, .checkExists), (1, .write 2), (1, .writeDone),
      (0, .ret), (2, .ret), (1, .ret)] := by
  refine returnsComplete_of_undisturbed <|
    .cons ⟨rfl, trivial⟩ <| .cons ⟨rfl, trivial⟩ <| .cons ⟨rfl, trivial⟩ <|
    .cons ⟨rfl, trivial⟩ <| .cons ⟨rfl, trivial⟩ <| .cons ⟨rfl, trivial⟩ <|
    .cons ⟨rfl, trivial⟩ <| .cons ⟨rfl, trivial⟩ <| .cons ⟨rfl, ?_⟩ <|
    .cons ⟨rfl, trivial⟩ <| .cons ⟨rfl, ?_⟩ <| .cons ⟨rfl, trivial⟩ <|
    .cons ⟨rfl, trivial⟩ <| .cons ⟨rfl, trivial⟩ <| .cons ⟨rfl, trivial⟩ <|
    .cons ⟨rfl, trivial⟩ <| .cons ⟨rfl, ?_⟩ <| .cons ⟨rfl, ?_⟩ <| .cons ⟨rfl, ?_⟩ <| .nil _
  all_goals rintro (_ | _ | _ | j) ⟨⟩
  rfl

/-- A call is killed after the first of two bytes, and the next one returns over it. -/
theorem not_returnsComplete_killed : ∃ t u : BtfDir,
    Trace Step (start false) [(0, .checkExists), (0, .version true),
      (0, .dump (some [97, 98])), (0, .createDirAll true), (0, .create true), (0, .write 1),
      (0, .stop), (1, .checkExists)] t ∧
    Step t (1, .ret) u ∧
    ¬ ReturnsComplete false ([(0, .checkExists), (0, .version true),
      (0, .dump (some [97, 98])), (0, .createDirAll true), (0, .create true), (0, .write 1),
      (0, .stop), (1, .checkExists)] ++ (1, .ret) :: []) := by
  have hrun : Trace Step (start false) [(0, .checkExists), (0, .version true),
      (0, .dump (some [97, 98])), (0, .createDirAll true), (0, .create true), (0, .write 1),
      (0, .stop), (1, .checkExists)] _ :=
    .cons rfl <| .cons rfl <| .cons rfl <| .cons rfl <| .cons rfl <| .cons rfl <|
    .cons rfl <| .cons rfl <| .nil _
  refine ⟨_, _, hrun, rfl, fun h => ?_⟩
  obtain ⟨content, hcontent, hdumped⟩ := h _ 1 [] _ rfl hrun
  cases hcontent
  revert hdumped
  decide

end Runs

section Alone

variable {s : BtfDir} {i : ℕ} {output : List UInt8} {names : List Name}
  {fs fs' : FileSystem Char (List UInt8)} {dst path : Path Char}
  {env : Environment Char (List UInt8)}

@[simp] theorem pc_goTo (s : BtfDir) (i : ℕ) (pc : BtfPc) : ((s.goTo i pc).calls i).pc = pc := by
  simp [goTo]

theorem trace_returning (hpc : (s.calls i).pc = .writing)
    (hdone : (s.calls i).written = (s.calls i).output.length) :
    Trace Step s [(i, .writeDone), (i, .ret)] ((s.goTo i .returning).goTo i .returned) := by
  have hwritten : Step s (i, .writeDone) (s.goTo i .returning) := by simp [Step, next, hpc, hdone]
  have hret : Step (s.goTo i .returning) (i, .ret) ((s.goTo i .returning).goTo i .returned) := by
    simp [Step, next]
  exact .cons hwritten <| .cons hret <| .nil _

/-- A call that dumps, from the moment the header is open. -/
theorem exists_trace_writing (hpc : (s.calls i).pc = .writing) (hwritten : (s.calls i).written = 0)
    (hempty : s.vmlinux = some []) :
    ∃ as t, (∀ a ∈ as, a.1 = i) ∧ Trace Step s as t ∧
      t.vmlinux = some (s.calls i).output ∧ t.dirExists = s.dirExists ∧
      (t.calls i).pc = .returned := by
  by_cases houtput : (s.calls i).output = []
  · have hdone : (s.calls i).written = (s.calls i).output.length := by rw [hwritten, houtput]; rfl
    refine ⟨_, _, by simp, trace_returning hpc hdone, ?_, rfl, pc_goTo ..⟩
    rw [houtput]
    exact hempty
  · have hpos := List.length_pos_iff.mpr houtput
    have hwrite : Step s (i, .write (s.calls i).output.length)
        (s.extended i (s.calls i).output.length) := by
      simp [Step, next, hpc, hwritten, hpos]
    have hrest := trace_returning (s := s.extended i (s.calls i).output.length) (i := i)
      (by simp [extended, hpc]) (by simp [extended, hwritten])
    refine ⟨_, _, by simp, .cons hwrite hrest, ?_, rfl, pc_goTo ..⟩
    simp [goTo, extended, setCall, hempty, hwritten, writeAt, overwrite, window]

/-- A call that finds no header and that nothing else happens to. -/
theorem exists_trace_alone (hpc : (s.calls i).pc = .checkingExists) (hnone : s.vmlinux = none)
    (output : List UInt8) :
    ∃ as t, (∀ a ∈ as, a.1 = i) ∧ Trace Step s as t ∧ t.vmlinux = some output ∧
      t.dirExists = true ∧ (t.calls i).pc = .returned := by
  let s₁ := s.goTo i .runningVersion
  let s₂ := s₁.goTo i .dumping
  let s₃ := { s₂ with dumps := output :: s₂.dumps }.setCall i ⟨.creatingDir, output, 0⟩
  let s₄ := { s₃ with dirExists := true }.goTo i .creatingFile
  have h₁ : Step s (i, .checkExists) s₁ := by simp [Step, next, hpc, hnone, s₁]
  have h₂ : Step s₁ (i, .version true) s₂ := by simp [Step, next, s₁, s₂]
  have h₃ : Step s₂ (i, .dump (some output)) s₃ := by simp [Step, next, s₂, s₃]
  have h₄ : Step s₃ (i, .createDirAll true) s₄ := by simp [Step, next, s₃, s₄]
  have h₅ : Step s₄ (i, .create true) (s₄.truncated i) := by
    have hdir : s₄.dirExists = true := rfl
    simp [Step, next, hdir, s₄]
  obtain ⟨as, t, has, hwriting, hheader, hdir, hreturned⟩ :=
    exists_trace_writing (s := s₄.truncated i) (i := i) (by simp [truncated])
      (by simp [truncated]) rfl
  have houtput : ((s₄.truncated i).calls i).output = output := by
    simp [truncated, goTo, s₃, s₄]
  refine ⟨_, t, ?_, .cons h₁ <| .cons h₂ <| .cons h₃ <| .cons h₄ <| .cons h₅ hwriting, ?_, ?_,
    hreturned⟩
  · simpa using has
  · rw [hheader, houtput]
  · exact hdir

structure Shows (s : BtfDir) (fs : FileSystem Char (List UInt8)) (d : Location Char) :
    Prop where
  dir : s.dirExists = true ↔ fs.IsDir d
  header : fs.node (d ++ [Build.vmlinux]) = s.vmlinux.map .file

/-- When `dumpKernelBtf` returns, a call that goes through its steps without another one in
between does the same to the directory. -/
theorem exists_trace_of_dumpKernelBtf (hplain : fs.Plain names)
    (hdst : ∀ x, .normal x ∈ dst → x ∈ names) (hvmlinux : Build.vmlinux ∈ names)
    (hstraight : ∀ k ∈ way fs.cwd dst, k <+: destination fs.cwd dst ∨ fs.IsDir k)
    (hs : s.Shows fs (destination fs.cwd dst)) (hpc : (s.calls i).pc = .checkingExists)
    (hexec : Fallible.exec (dumpKernelBtf env dst) fs = (.ok path, fs')) :
    ∃ as t, (∀ a ∈ as, a.1 = i) ∧ Trace Step s as t ∧ t.Shows fs' (destination fs.cwd dst) ∧
      (t.calls i).pc = .returned := by
  have hdumped := (dumpKernelBtf_dumped hplain hdst hvmlinux hstraight).of_exec_eq_ok hexec
  have hexists := hdumped.node_ne_none
  obtain ⟨n, hn⟩ := Option.ne_none_iff_exists'.mp hexists
  have hdir : fs'.IsDir (destination fs.cwd dst) := fs'.parent_dir _ _ _ hn
  have hheader := hdumped.tree_eq [Build.vmlinux] (by simp)
  rw [withVmlinux, if_pos rfl, hs.header] at hheader
  cases hfound : s.vmlinux with
  | some content =>
      have hdir₀ : fs.IsDir (destination fs.cwd dst) := by
        refine fs.parent_dir _ Build.vmlinux (.file content) ?_
        rw [hs.header, hfound]
        rfl
      have hcheck : Step s (i, .checkExists) (s.goTo i .returning) := by
        simp [Step, next, hpc, hfound]
      have hret : Step (s.goTo i .returning) (i, .ret)
          ((s.goTo i .returning).goTo i .returned) := by
        simp [Step, next]
      refine ⟨_, _, by simp, .cons hcheck <| .cons hret <| .nil _, ⟨?_, ?_⟩, pc_goTo ..⟩
      · exact iff_of_true (hs.dir.mpr hdir₀) hdir
      · rw [hheader, hfound]
        exact congrArg (Option.map _) hfound.symm
  | none =>
      rw [hfound, Option.map_none, Option.none_or] at hheader
      cases houtput : env.bpftool.output with
      | none =>
          rw [houtput] at hheader
          exact absurd hheader hexists
      | some output =>
          rw [houtput] at hheader
          obtain ⟨as, t, has, hrun, hwritten, hdirExists, hreturned⟩ :=
            exists_trace_alone hpc hfound output
          refine ⟨as, t, has, hrun, ⟨iff_of_true hdirExists hdir, ?_⟩, hreturned⟩
          rw [hheader, hwritten]

end Alone

end BtfDir

end Build

end Xbpf
