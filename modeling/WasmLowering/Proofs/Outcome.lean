import Mathlib
import WasmLowering.Decoder

/-!
# Success of computations

A computation that can fail is taken apart by what it means that it succeeds: a computation in two
parts succeeds if both parts do, a check succeeds if its condition holds, and a context changes the
fault of a failure but no success. The same holds of decoders, which pass on the bytes that are
left.
-/

namespace WasmLowering

/-- A computation in two parts succeeds if both parts do. -/
theorem bind_eq_ok {α β : Type} {x : Except Fault α} {f : α → Except Fault β} {b : β} :
    (x >>= f) = .ok b ↔ ∃ a, x = .ok a ∧ f a = .ok b := by
  cases x with
  | error e => simp [bind, Except.bind]
  | ok a => simp [bind, Except.bind]

/-- A computation whose value can be looked at has succeeded. -/
theorem exists_ok_of_isSome {α : Type} {x : Except Fault α} (h : x.toOption.isSome = true) :
    ∃ a, x = .ok a := by
  cases x with
  | error e => cases h
  | ok a => exact ⟨a, rfl⟩

/-- A computation whose changed value can be looked at has succeeded. -/
theorem exists_ok_of_map {α β : Type} {x : Except Fault α} {g : α → β} {b : β}
    (h : x.toOption.map g = some b) : ∃ a, x = .ok a ∧ g a = b := by
  cases x with
  | error _ => cases h
  | ok a => exact ⟨a, rfl, Option.some.inj h⟩

theorem require_eq_ok {condition : Bool} {u : Unit} :
    require condition = .ok u ↔ condition = true := by
  cases condition <;> simp [require]

theorem inContext_eq_ok {α : Type} {context : Context} {x : Except Fault α} {a : α} :
    inContext context x = .ok a ↔ x = .ok a := by
  cases x <;> simp [inContext]

namespace Decoder

variable {α β : Type} {d : Decoder α} {f : α → Decoder β} {input rest : Bytes}

/-- A decoder in two parts succeeds if both parts do, the second on what the first leaves. -/
theorem run_bind_eq_ok {b : β} :
    (d >>= f).run input = (.ok b, rest) ↔
      ∃ a mid, d.run input = (.ok a, mid) ∧ (f a).run mid = (.ok b, rest) := by
  rw [run_bind]
  split
  · next a mid h => simp [h]
  · next e mid h => simp [h]

/-- A decoder in two parts fails if one of them does. -/
theorem run_bind_eq_error {e : Fault} :
    (d >>= f).run input = (.error e, rest) ↔
      d.run input = (.error e, rest) ∨
        ∃ a mid, d.run input = (.ok a, mid) ∧ (f a).run mid = (.error e, rest) := by
  rw [run_bind]
  split
  · next a mid h => simp [h]
  · next e mid h => simp [h]

/-- A check that succeeds has a true condition and consumes nothing. -/
theorem check_run {condition : Bool} {u : Unit}
    (h : (check condition).run input = (.ok u, rest)) : condition = true ∧ rest = input := by
  obtain ⟨hc, rfl⟩ := Prod.mk.inj h
  exact ⟨require_eq_ok.1 hc, rfl⟩

/-- A computation that is run as a decoder consumes nothing. -/
theorem ofExcept_run {x : Except Fault α} {a : α}
    (h : (ofExcept x).run input = (.ok a, rest)) : x = .ok a ∧ rest = input := by
  obtain ⟨hx, rfl⟩ := Prod.mk.inj h
  exact ⟨hx, rfl⟩

/-- A constant is given back as it is and consumes nothing. -/
theorem pure_run {a b : α} (h : (pure a : Decoder α).run input = (.ok b, rest)) :
    b = a ∧ rest = input := by
  obtain ⟨hb, rfl⟩ := Prod.mk.inj h
  exact ⟨(Except.ok.inj hb).symm, rfl⟩

/-- A decoder whose value is changed at the end. -/
theorem run_bind_pure_eq_ok {g : α → β} {b : β}
    (h : (d >>= fun a => pure (g a)).run input = (.ok b, rest)) :
    ∃ a, d.run input = (.ok a, rest) ∧ b = g a := by
  obtain ⟨a, mid, ha, hb⟩ := run_bind_eq_ok.1 h
  obtain ⟨rfl, rfl⟩ := pure_run hb
  exact ⟨a, ha, rfl⟩

end Decoder

end WasmLowering
