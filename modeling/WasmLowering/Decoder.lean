import WasmLowering.Fault

/-!
# Decoders

A decoder looks at the front of its input and says what it made of it and what is left. It keeps
what it consumed also when it fails, so the rest is part of every outcome. The rest is always a
suffix of the input: that fact is a field of the type, every decoder built from these pieces has it,
and loops over the input end because of it.
-/

namespace WasmLowering

/-- A reader of a value at the front of a byte string. -/
structure Decoder (α : Type) where
  /-- The outcome, and the bytes that are left. -/
  run : Bytes → Except Fault α × Bytes
  /-- Nothing is left but a suffix of the input. -/
  suffix : ∀ input, (run input).2 <:+ input

namespace Decoder

variable {α β σ : Type}

/-- Decoders that give the same on every input are the same. -/
@[ext] theorem ext {d e : Decoder α} (h : ∀ input, d.run input = e.run input) : d = e := by
  cases d; cases e
  congr
  funext input
  exact h input

theorem length_rest_le (d : Decoder α) (input : Bytes) :
    (d.run input).2.length ≤ input.length :=
  (d.suffix input).length_le

/-- Consumes nothing and gives `a`. -/
protected def pure (a : α) : Decoder α where
  run input := (.ok a, input)
  suffix input := List.suffix_refl input

/-- Runs `d`, then what `f` makes of its value on the bytes that are left. -/
protected def bind (d : Decoder α) (f : α → Decoder β) : Decoder β where
  run input :=
    match d.run input with
    | (.ok a, rest) => (f a).run rest
    | (.error e, rest) => (.error e, rest)
  suffix input := by
    have hd := d.suffix input
    split
    · next a rest h => exact ((f a).suffix rest).trans (by simpa [h] using hd)
    · next e rest h => simpa [h] using hd

instance : Monad Decoder where
  pure := Decoder.pure
  bind := Decoder.bind

@[simp] theorem run_pure (a : α) (input : Bytes) :
    (pure a : Decoder α).run input = (.ok a, input) := rfl

/-- A decoder in two parts runs the second on what the first leaves, and stops at a fault of the
    first. -/
theorem run_bind (d : Decoder α) (f : α → Decoder β) (input : Bytes) :
    (d >>= f).run input =
      match d.run input with
      | (.ok a, rest) => (f a).run rest
      | (.error e, rest) => (.error e, rest) := rfl

theorem run_bind_ok {d : Decoder α} {f : α → Decoder β} {input rest : Bytes} {a : α}
    (h : d.run input = (.ok a, rest)) : (d >>= f).run input = (f a).run rest := by
  simp [run_bind, h]

instance : LawfulMonad Decoder := LawfulMonad.mk' Decoder
  (by
    intro α d
    refine Decoder.ext fun input => ?_
    show (Decoder.bind d _).run input = d.run input
    simp only [Decoder.bind]
    split <;> simp_all [Decoder.pure])
  (by intros; rfl)
  (by
    intro α β γ d f g
    refine Decoder.ext fun input => ?_
    show (Decoder.bind (Decoder.bind d f) g).run input =
      (Decoder.bind d fun a => Decoder.bind (f a) g).run input
    simp only [Decoder.bind]
    split <;> split <;> simp_all)

/-! ## Primitives -/

/-- Fails without consuming anything. -/
def fail (fault : Fault) : Decoder α where
  run input := (.error fault, input)
  suffix input := List.suffix_refl input

/-- The outcome of a computation that reads nothing. -/
def ofExcept (result : Except Fault α) : Decoder α where
  run input := (result, input)
  suffix input := List.suffix_refl input

/-- Fails as malformed input unless the condition holds. -/
def check (condition : Bool) : Decoder Unit :=
  ofExcept (require condition)

/-- The number of bytes that are left. -/
def remaining : Decoder Nat where
  run input := (.ok input.length, input)
  suffix input := List.suffix_refl input

/-- Fails unless at least `n` bytes are left; consumes nothing. -/
def ensure (n : Nat) : Decoder Unit where
  run input := (require (n ≤ input.length), input)
  suffix input := List.suffix_refl input

/-- The next byte. -/
def byte : Decoder UInt8 where
  run
    | [] => (.error .malformed, [])
    | b :: rest => (.ok b, rest)
  suffix
    | [] => List.suffix_refl []
    | b :: rest => List.suffix_cons b rest

/-- The next byte, which stays in the input. -/
def peek : Decoder UInt8 where
  run
    | [] => (.error .malformed, [])
    | b :: rest => (.ok b, b :: rest)
  suffix
    | [] => List.suffix_refl []
    | b :: rest => List.suffix_refl (b :: rest)

/-- The next `n` bytes. Consumes nothing if there are fewer. -/
def take (n : Nat) : Decoder Bytes where
  run input :=
    if n ≤ input.length then (.ok (input.take n), input.drop n) else (.error .malformed, input)
  suffix input := by
    split
    · exact List.drop_suffix n input
    · exact List.suffix_refl input

/-- The natural number whose little-endian digits in base 256 are the next `n` bytes. -/
def littleEndian (n : Nat) : Decoder Nat := do
  let bytes ← take n
  return bytes.foldr (fun b acc => b.toNat + 256 * acc) 0

/-! ## Combinators -/

/-- Runs `step` on a state `n` times. -/
def iterate (step : σ → Decoder σ) : Nat → σ → Decoder σ
  | 0, s => pure s
  | n + 1, s => do iterate step n (← step s)

/-- The values of `n` runs of `d`, in order. -/
def replicate (d : Decoder α) : Nat → Decoder (List α)
  | 0 => pure []
  | n + 1 => do
    let a ← d
    let as ← replicate d n
    return a :: as

/-- Decodes all of the input: bytes that are left make it malformed. -/
def decodeAll (d : Decoder α) (input : Bytes) : Except Fault α :=
  match d.run input with
  | (.ok a, []) => .ok a
  | (.ok _, _ :: _) => .error .malformed
  | (.error e, _) => .error e

end Decoder

end WasmLowering
