import WasmLowering.Proofs.Checkpoints
import WasmLowering.Proofs.Loading

/-!
# Verification of lowered functions

A verifier looks at every function as soon as it is lowered. It does not change what is compiled: a
module compiles with a verifier exactly if it compiles without one and the verifier has no complaint
about any of its functions, and then it is the same module. A complaint is a fault that names the
function. It happens in the code section and in no body, and it hides what would have gone wrong
later.

The two ways to load a module are compared step by step. After each step they have failed alike, or
they have loaded the same and all functions so far have passed, or the verifier has complained.

## Key results

- `Loader.Checked.bind`: the comparison goes on from one step to the next
- `Loader.checked_code`: the code section is where the two can part
- `compile_verified_iff`: what compiles with a verifier
- `compile_verified_fault`: how compiling with a verifier fails
-/

namespace WasmLowering

open Ssa

namespace Loader

/-- The loader with another verifier. -/
def withVerifier (l : Loader) (verifier : Verifier) : Loader :=
  { l with verifier }

/-- How the outcome of loading more with a verifier follows from that without one. What a complaint
    is reported as is given by `report`. -/
inductive Checked {ε : Type} (report : Fault → ε → Prop) (verifier : Verifier) (l : Loader) :
    Except ε Loader → Except ε Loader → Prop where
  /-- Both fail alike. -/
  | failed (e : ε) : Checked report verifier l (.error e) (.error e)
  /-- Both load the same, and what is new has passed. -/
  | passed {u : Loader} {more : List Ssa.Function} (off : u.verifier = .off)
      (grown : u.functions.toList = l.functions.toList ++ more)
      (pass : ∀ f ∈ more, verifier f = none) :
      Checked report verifier l (.ok u) (.ok (u.withVerifier verifier))
  /-- The verifier has a complaint about a function that would be loaded without it. -/
  | refused {plain : Except ε Loader} {f : Ssa.Function} {complaint : Bytes} {e : ε}
      (verdict : verifier f = some complaint) (reported : report (.of (.broken f.name complaint)) e)
      (lowered : ∀ u, plain = .ok u → u.verifier = .off ∧
        l.functions.toList <+: u.functions.toList ∧ f ∈ u.functions.toList) :
      Checked report verifier l plain (.error e)

section Checked

variable {ε α : Type} {report : Fault → ε → Prop} {verifier : Verifier} {l u : Loader}
  {plain verified : Except ε Loader}

/-- Functions are only added, and the verifier stays off. -/
theorem Checked.grows (h : Checked report verifier l (.ok u) verified) :
    u.verifier = .off ∧ l.functions.toList <+: u.functions.toList := by
  cases h with
  | passed off grown _ => exact ⟨off, _, grown.symm⟩
  | refused _ _ lowered => exact ⟨(lowered u rfl).1, (lowered u rfl).2.1⟩

/-- The comparison may begin earlier, if what was loaded in between has passed. -/
theorem Checked.extend {more : List Ssa.Function} (h : Checked report verifier u plain verified)
    (grown : u.functions.toList = l.functions.toList ++ more)
    (pass : ∀ f ∈ more, verifier f = none) : Checked report verifier l plain verified := by
  cases h with
  | failed e => exact .failed e
  | @passed w later off grown' pass' =>
    refine @Checked.passed _ _ _ _ w (more ++ later) off ?_ fun f hf => ?_
    · rw [grown', grown, List.append_assoc]
    · exact (List.mem_append.1 hf).elim (pass f) (pass' f)
  | refused verdict reported lowered =>
    refine .refused verdict reported fun w hw => ?_
    -- What was loaded before the complaint is at the front of what is loaded without it.
    obtain ⟨off, hprefixed, hmem⟩ := lowered w hw
    rw [grown] at hprefixed
    exact ⟨off, (List.prefix_append ..).trans hprefixed, hmem⟩

/-- A step that comes before, and that does not look at the loader. -/
theorem Checked.after {x : Except ε α} {g g' : α → Except ε Loader}
    (h : ∀ a, Checked report verifier l (g a) (g' a)) :
    Checked report verifier l (x >>= g) (x >>= g') := by
  cases x with
  | error e => exact .failed e
  | ok a => exact h a

theorem Checked.same (off : u.verifier = .off) (same : u.functions = l.functions) :
    Checked report verifier l (.ok u) (.ok (u.withVerifier verifier)) :=
  @Checked.passed ε report verifier l u [] off (by rw [same, List.append_nil]) (by simp)

/-- The comparison goes on from one step to the next. -/
theorem Checked.bind {g : Loader → Except ε Loader} (h : Checked report verifier l plain verified)
    (next : ∀ u, u.verifier = .off →
      Checked report verifier u (g u) (g (u.withVerifier verifier))) :
    Checked report verifier l (plain >>= g) (verified >>= g) := by
  cases h with
  | failed e => exact .failed e
  | passed off grown pass => exact (next _ off).extend grown pass
  -- Without the verifier the next step may be taken, and adds functions to that one.
  | refused verdict reported lowered =>
    refine .refused verdict reported fun w hw => ?_
    cases hplain : plain with
    | error e =>
      rw [hplain] at hw
      cases hw
    | ok u =>
      rw [hplain] at hw
      obtain ⟨off, hprefixed, hmem⟩ := lowered u hplain
      have hnext := next u off
      rw [show g u = .ok w from hw] at hnext
      obtain ⟨off', hprefixed'⟩ := hnext.grows
      exact ⟨off', hprefixed.trans hprefixed', hprefixed'.subset hmem⟩

/-- What a complaint is reported as may be put into other words. -/
theorem Checked.mapError {δ : Type} {report' : Fault → δ → Prop} (translate : ε → δ)
    (agree : ∀ fault e, report fault e → report' fault (translate e))
    (h : Checked report verifier l plain verified) :
    Checked report' verifier l (plain.mapError translate) (verified.mapError translate) := by
  cases h with
  | failed e => exact .failed (translate e)
  | passed off grown pass => exact .passed off grown pass
  | refused verdict reported lowered =>
    refine .refused verdict (agree _ _ reported) fun u hu => lowered u ?_
    -- The translation only changes errors.
    cases plain with
    | error e => cases hu
    | ok w =>
      obtain rfl := Except.ok.inj hu
      rfl

end Checked

/-! ## The code section -/

section Code

variable {report : Fault → Fault → Prop} {verifier : Verifier} {l : Loader}

/-- The verifier looks at a function before anything else happens. -/
private theorem checked_check (reports : ∀ fault, report fault fault) {f : Ssa.Function}
    {g : Loader → Except Fault Loader} {u : Loader} (pushed : u.functions = l.functions.push f)
    (next : Checked report verifier u (g u) (g (u.withVerifier verifier))) :
    Checked report verifier l (g u)
      (verifier.check f >>= fun _ => g (u.withVerifier verifier)) := by
  have hpushed : u.functions.toList = l.functions.toList ++ [f] := by
    rw [pushed, Array.toList_push]
  cases hverdict : verifier f with
  | none =>
    rw [Verifier.check_eq_ok.2 hverdict]
    exact next.extend hpushed (by simpa using hverdict)
  | some complaint =>
    have hcheck : verifier.check f = .error (.of (.broken f.name complaint)) := by
      rw [Verifier.check, hverdict]
    rw [hcheck]
    -- The function that is refused would have been part of the module.
    refine .refused hverdict (reports _) fun w hw => ?_
    rw [hw] at next
    obtain ⟨off, hprefixed⟩ := next.grows
    rw [hpushed] at hprefixed
    exact ⟨off, (List.prefix_append ..).trans hprefixed, hprefixed.subset (by simp)⟩

/-- Bodies are lowered alike up to the first complaint, whatever is done after them. -/
private theorem checked_bodies (reports : ∀ fault, report fault fault)
    {g : Loader → Bytes → Except Fault Loader} (off : l.verifier = .off)
    (next : ∀ u rest, u.verifier = .off →
      Checked report verifier u (g u rest) (g (u.withVerifier verifier) rest)) (n : Nat)
    (input : Bytes) :
    Checked report verifier l
      ((Decoder.iterate bodyEntry n l).outcome input >>= fun p => g p.1 p.2)
      ((Decoder.iterate bodyEntry n (l.withVerifier verifier)).outcome input >>= fun p =>
        g p.1 p.2) := by
  induction n generalizing l input with
  | zero => exact next l input off
  | succ n ih =>
    simp only [Decoder.iterate, Decoder.outcome_bind, bodyEntry, Decoder.outcome_ofExcept,
      bind_assoc, Decoder.outcome_pure, ok_bind]
    -- What comes before the check is the same on both sides.
    refine .after fun p => .after fun type => .after fun lowered => ?_
    -- Without a verifier the check does nothing.
    have hoff : l.verifier.check lowered.1 = .ok () := by
      rw [off]
      rfl
    rw [hoff, ok_bind]
    let u : Loader := { l with functions := l.functions.push lowered.1, intrinsics := lowered.2 }
    exact @checked_check report verifier l reports lowered.1
      (fun u => (Decoder.iterate bodyEntry n u).outcome p.2 >>= fun q => g q.1 q.2) u rfl
      (@ih u off p.2)

private theorem checked_code (reports : ∀ fault, report fault fault) (off : l.verifier = .off)
    (payload : Bytes) :
    Checked report verifier l (l.codeSection.decodeAll payload)
      ((l.withVerifier verifier).codeSection.decodeAll payload) := by
  simp only [Decoder.decodeAll_eq, codeSection, Decoder.outcome_bind, Decoder.check,
    Decoder.outcome_ofExcept, bind_assoc, Decoder.outcome_pure, ok_bind]
  refine .after fun p => .after fun _ => ?_
  refine @checked_bodies report verifier l reports (fun u rest => require rest.isEmpty >>= fun _ =>
    .ok { u with bodies := p.1.toNat }) off (fun u rest off => .after fun _ => ?_) _ _
  exact @Checked.same _ _ _ u { u with bodies := p.1.toNat } off rfl

end Code

/-! ## Other sections -/

section Sections

variable {report : Fault → Fault → Prop} {verifier : Verifier} {l : Loader}

private theorem checked_table (off : l.verifier = .off) (d : ModuleTable → Decoder ModuleTable)
    (payload : Bytes) :
    Checked report verifier l ((l.tableSection d).decodeAll payload)
      (((l.withVerifier verifier).tableSection d).decodeAll payload) := by
  simp only [Decoder.decodeAll_eq, tableSection, Decoder.outcome_bind, bind_assoc,
    Decoder.outcome_pure, ok_bind]
  refine .after fun p => .after fun _ => ?_
  exact @Checked.same _ _ _ l { l with table := p.1 } off rfl

private theorem checked_functions (off : l.verifier = .off) (payload : Bytes) :
    Checked report verifier l (l.functionSection.decodeAll payload)
      ((l.withVerifier verifier).functionSection.decodeAll payload) := by
  simp only [Decoder.decodeAll_eq, functionSection, Decoder.outcome_bind, bind_assoc,
    Decoder.outcome_pure, ok_bind]
  refine .after fun p => .after fun q => .after fun _ => ?_
  exact @Checked.same _ _ _ l { l with table := q.1, declared := p.1.toNat } off rfl

/-- A section of any kind. Only in the code section is there anything to complain about. -/
private theorem checked_section (off : l.verifier = .off) (k : SectionKind) (payload : Bytes) :
    Checked (fun fault e => k = .code ∧ fault = e) verifier l
      ((l.sectionDecoder k).decodeAll payload)
      (((l.withVerifier verifier).sectionDecoder k).decodeAll payload) := by
  cases k with
  | custom =>
    simp only [Decoder.decodeAll_eq, sectionDecoder, Decoder.outcome_pure, ok_bind]
    exact .after fun _ => .same off rfl
  | code => exact checked_code (fun fault => ⟨rfl, rfl⟩) off payload
  | functions => exact checked_functions off payload
  | _ => exact checked_table off _ payload

/-- A section other than a custom one. A complaint happens in the code section. -/
private theorem checked_ranked (off : l.verifier = .off) (f : Frame) :
    Checked (fun fault e => e = fault.within (.inSection .code)) verifier l (l.ranked f)
      ((l.withVerifier verifier).ranked f) := by
  have hcontext : ∀ (k : SectionKind) (x : Except Fault Loader),
      inContext (.inSection k) x = x.mapError (Fault.within (.inSection k)) := by
    intro k x
    cases x <;> rfl
  unfold ranked
  refine .after fun _ => ?_
  dsimp only
  cases SectionKind.ofId? f.id with
  | none => exact .failed _
  | some k =>
    simp only [hcontext]
    have hsection :=
      -- The new rank has no part in the comparison.
      @checked_section verifier { l with rank := sectionRank f.id } off k f.payload
    refine Checked.mapError _ ?_ (hsection.extend (List.append_nil _).symm (by simp))
    rintro fault _ ⟨rfl, rfl⟩
    rfl

/-- A custom section, which has nothing to do with functions. -/
private theorem checked_custom {report : Fault → LoadFailure → Prop} (off : l.verifier = .off)
    (payload : Bytes) :
    Checked report verifier l (l.custom payload) ((l.withVerifier verifier).custom payload) := by
  unfold custom
  split
  · exact .failed _
  · split
    · dsimp only
      split
      · exact @Checked.same _ _ _ l (l.applyNames _) off rfl
      · exact .failed _
    · exact .same off rfl

/-- The next section. -/
private theorem checked_frame (off : l.verifier = .off) (f : Frame) :
    Checked (fun fault e => e.fault = fault.within (.inSection .code)) verifier l (l.frame f)
      ((l.withVerifier verifier).frame f) := by
  by_cases hid : f.id = 0
  · rw [frame, frame, if_pos hid, if_pos hid]
    exact checked_custom off f.payload
  -- The warnings are the same with and without a verifier.
  · have hframe : ∀ l : Loader,
        l.frame f = (l.ranked f).mapError (LoadFailure.mk · l.warnings) := by
      intro l
      rw [frame, if_neg hid]
      cases l.ranked f <;> rfl
    rw [hframe, hframe]
    exact Checked.mapError _ (fun _ _ hreport => hreport) (checked_ranked off f)

private theorem checked_frames (off : l.verifier = .off) (fs : List Frame) :
    Checked (fun fault e => e.fault = fault.within (.inSection .code)) verifier l (l.frames fs)
      ((l.withVerifier verifier).frames fs) := by
  induction fs generalizing l with
  | nil => exact .same off rfl
  | cons f fs ih => exact (checked_frame off f).bind fun u off => ih off

end Sections

end Loader

/-! ## Modules -/

/-- Loading with a verifier, compared with loading without one. -/
private theorem loadModule_checked (verifier : Verifier) (input : Bytes) :
    Loader.Checked (fun fault e => e.fault = fault.within (.inSection .code)) verifier {}
      (loadModule input) (loadModule input verifier) := by
  unfold loadModule
  split
  · exact .failed _
  · next rest hheader =>
    refine (@Loader.checked_frames verifier {} rfl _).bind fun u off => ?_
    -- The last check does not look at the verifier.
    have hsame : (u.withVerifier verifier).bodies = u.bodies ∧
        (u.withVerifier verifier).declared = u.declared := ⟨rfl, rfl⟩
    rw [hsame.1, hsame.2]
    by_cases hend : ((Framing.split rest).complete && u.bodies == u.declared) = true
    · rw [if_pos hend, if_pos hend]
      exact .same off rfl
    · rw [if_neg hend, if_neg hend]
      exact .failed _

/-- The outcome of compiling is that of loading. -/
private theorem outcome_eq_load (name input : Bytes) (verifier : Verifier) :
    (compile name input verifier).outcome =
      ((loadModule input verifier).mapError fun e => e.fault.within .parse).map fun l =>
        { table := l.table
          lowered := some { name, functions := l.functions, intrinsics := l.intrinsics } } := by
  unfold compile
  cases loadModule input verifier <;> rfl

/-- A module compiles with a verifier exactly if it compiles without one and the verifier has no
    complaint about its functions, and then it is the same module. -/
theorem compile_verified_iff {verifier : Verifier} {name input : Bytes} {m : Module} :
    (compile name input verifier).outcome = .ok m ↔ (compile name input).outcome = .ok m ∧
      ∀ lowered ∈ m.lowered, ∀ f ∈ lowered.functions, verifier f = none := by
  have hloaded := loadModule_checked verifier input
  simp only [outcome_eq_load]
  generalize loadModule input = plain, loadModule input verifier = verified at hloaded
  cases hloaded with
  | failed e => simp [Except.map, Except.mapError]
  | @passed u more off grown pass =>
    -- The functions that have passed are all functions of the module.
    refine ⟨fun h => ⟨h, ?_⟩, And.left⟩
    obtain rfl := Except.ok.inj h
    intro lowered hlowered f hf
    obtain rfl := Option.some.inj hlowered
    have hmem : f ∈ u.functions.toList := Array.mem_toList_iff.2 hf
    rw [grown] at hmem
    exact pass f (by simpa using hmem)
  | refused verdict reported hlowered =>
    refine ⟨fun h => (by cases h), ?_⟩
    rintro ⟨hm, passes⟩
    -- The function that is complained about would be one of the module's.
    cases plain with
    | error e => cases hm
    | ok u =>
      obtain rfl := Except.ok.inj hm
      obtain ⟨-, -, hmem⟩ := hlowered u rfl
      rw [passes _ rfl _ (Array.mem_toList_iff.1 hmem)] at verdict
      cases verdict

/-- If a module does not compile with a verifier, the fault is the one without it, or it is the
    complaint about a function, which happens in the code section. -/
theorem compile_verified_fault {verifier : Verifier} {name input : Bytes} {fault : Fault}
    (h : (compile name input verifier).outcome = .error fault) :
    (compile name input).outcome = .error fault ∨
      ∃ f complaint, verifier f = some complaint ∧
        fault =
          ((Fault.of (.broken f.name complaint)).within (.inSection .code)).within .parse := by
  have hloaded := loadModule_checked verifier input
  simp only [outcome_eq_load] at h ⊢
  generalize loadModule input = plain, loadModule input verifier = verified at hloaded h
  cases hloaded with
  | failed e => exact .inl h
  | passed off grown pass => cases h
  | @refused plain f complaint e verdict reported hlowered =>
    obtain rfl := Except.error.inj h
    exact .inr ⟨f, complaint, verdict, congrArg (Fault.within .parse) reported⟩

example : (((Fault.of (.broken (bodyName 0) (.ofString "no terminator"))).within
      (.inSection .code)).within .parse).message =
    .ofString "func_0 is broken: no terminator: <- section Code <- wasm/parse" := by
  decide +kernel

end WasmLowering
