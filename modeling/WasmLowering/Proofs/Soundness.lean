import WasmLowering.Proofs.BinaryFormat

/-!
# Soundness of decoders

A decoder is sound for a format if what it makes of some bytes is written in them: the bytes that it
consumes are a form of its value. Soundness is closed under repetition, where a state may be passed
from one item to the next, so that the soundness of a section follows from that of its entries.

## Key results

- `sound_u32`, `sound_s32`, `sound_s64`, `sound_littleEndian`: numbers
- `sound_sized`: byte strings behind their size
- `sound_replicate`, `sound_iterate`: repetition
- `sound_localRuns`: the declaration of locals
-/

namespace WasmLowering

/-- The forms of a byte string behind its size. -/
inductive SizedForm : Bytes → Bytes → Prop where
  | mk {s size : Bytes} (form : UnsignedForm 32 s.length size) : SizedForm s (size ++ s)

/-- A state that is passed along a list of items, each of which changes it. -/
inductive Chain {σ ι : Type} (step : σ → σ → ι → Prop) : σ → List ι → σ → Prop where
  | nil (s : σ) : Chain step s [] s
  | cons {s t u : σ} {item : ι} {items : List ι} (first : step s t item)
      (rest : Chain step t items u) : Chain step s (item :: items) u

namespace Chain

variable {σ ι κ : Type} {step : σ → σ → ι → Prop} {s t : σ} {items : List ι}

/-- What every step keeps, a chain keeps. -/
theorem keeps {P : σ → Prop} (h : Chain step s items t)
    (hstep : ∀ s t, ∀ item ∈ items, step s t item → P s → P t) (hs : P s) : P t := by
  induction h with
  | nil s => exact hs
  | cons first rest ih =>
    exact ih (fun s t item hitem => hstep s t item (List.mem_cons_of_mem _ hitem))
      (hstep _ _ _ List.mem_cons_self first hs)

/-- A chain along two lists passes through a state between them. -/
theorem append {later : List ι} :
    Chain step s (items ++ later) t ↔ ∃ u, Chain step s items u ∧ Chain step u later t := by
  induction items generalizing s with
  | nil =>
    constructor
    · exact fun h => ⟨s, .nil s, h⟩
    · rintro ⟨u, ⟨⟩, h⟩
      exact h
  | cons item items ih =>
    constructor
    · rintro (_ | ⟨first, rest⟩)
      obtain ⟨u, hitems, hlater⟩ := ih.1 rest
      exact ⟨u, .cons first hitems, hlater⟩
    · rintro ⟨u, _ | ⟨first, hitems⟩, hlater⟩
      exact .cons first (ih.2 ⟨u, hitems, hlater⟩)

/-- A chain of forms is a chain of what they are forms of. -/
theorem written {form : κ → ι → Prop} {step : σ → σ → κ → Prop}
    (h : Chain (fun s t item => ∃ x, step s t x ∧ form x item) s items t) :
    ∃ xs, Chain step s xs t ∧ List.Forall₂ form xs items := by
  induction h with
  | nil s => exact ⟨[], .nil s, .nil⟩
  | cons first _ ih =>
    obtain ⟨x, hx, form⟩ := first
    obtain ⟨xs, hxs, forms⟩ := ih
    exact ⟨x :: xs, .cons hx hxs, .cons form forms⟩

end Chain

/-- A number in little-endian order is below the power for its bytes. -/
private theorem foldr_littleEndian_lt (bytes : Bytes) :
    bytes.foldr (fun b acc => b.toNat + 256 * acc) 0 < 256 ^ bytes.length := by
  induction bytes with
  | nil => decide
  | cons b bytes ih =>
    have hb := b.toNat_lt
    rw [List.foldr_cons, List.length_cons, Nat.pow_succ]
    omega

/-- The bytes of a number stand for it. -/
private theorem littleEndianBytes_foldr (bytes : Bytes) :
    littleEndianBytes bytes.length (bytes.foldr (fun b acc => b.toNat + 256 * acc) 0) = bytes := by
  induction bytes with
  | nil => rfl
  | cons b bytes ih =>
    have hb := b.toNat_lt
    simp only [List.length_cons, List.foldr_cons, littleEndianBytes]
    rw [show ∀ n, (b.toNat + 256 * n) % 256 = b.toNat by intro n; omega,
      show ∀ n, (b.toNat + 256 * n) / 256 = n by intro n; omega, UInt8.ofNat_toNat, ih]

namespace Decoder

variable {α σ : Type} {d : Decoder α} {input rest : Bytes}

/-- What the decoder consumes is a form of what it gives. -/
def Sound (d : Decoder α) (form : α → Bytes → Prop) : Prop :=
  ∀ ⦃input rest : Bytes⦄ ⦃a : α⦄, d.run input = (.ok a, rest) →
    ∃ bytes, input = bytes ++ rest ∧ form a bytes

/-! ## Numbers and byte strings -/

/-- A byte is the first one of the input. -/
theorem byte_run {b : UInt8} (h : byte.run input = (.ok b, rest)) : input = b :: rest := by
  cases input with
  | nil => simp [byte] at h
  | cons c tail =>
    obtain ⟨hc, rfl⟩ := Prod.mk.inj h
    obtain rfl : c = b := Except.ok.inj hc
    rfl

/-- What is read as an unsigned number of 32 bits is a form of it. -/
theorem sound_u32 : u32.Sound fun n => UnsignedForm 32 n.toNat :=
  fun _ _ _ h => u32_run_iff.1 h

/-- What is read as an unsigned number of 64 bits is a form of it. -/
theorem sound_u64 : u64.Sound fun n => UnsignedForm 64 n.toNat := by
  intro input rest n h
  obtain ⟨m, mid, hm, hn⟩ := run_bind_eq_ok.1 h
  obtain ⟨rfl, rfl⟩ := pure_run hn
  obtain ⟨bytes, rfl, form⟩ := (unsigned_run_iff (by decide)).1 hm
  refine ⟨bytes, rfl, ?_⟩
  show UnsignedForm 64 (UInt64.ofNat m).toNat bytes
  rwa [UInt64.toNat_ofNat_of_lt' form.lt]

/-- What is read as a signed number of 32 bits is a form of it. -/
theorem sound_s32 : s32.Sound fun n => SignedForm 32 n.toInt32.toInt := by
  intro input rest n h
  obtain ⟨m, mid, hm, hn⟩ := run_bind_eq_ok.1 h
  obtain ⟨rfl, rfl⟩ := pure_run hn
  obtain ⟨bytes, rfl, form⟩ := (signed_run_iff (by decide)).1 hm
  -- A form of a number in range, so it is kept in 32 bits.
  have hrange := form.range (by decide)
  refine ⟨bytes, rfl, ?_⟩
  show SignedForm 32 (Int32.ofInt m).toInt bytes
  rwa [Int32.toInt_ofInt_of_le (by simpa using hrange.1) (by simpa using hrange.2)]

/-- What is read as a signed number of 64 bits is a form of it. -/
theorem sound_s64 : s64.Sound fun n => SignedForm 64 n.toInt64.toInt := by
  intro input rest n h
  obtain ⟨m, mid, hm, hn⟩ := run_bind_eq_ok.1 h
  obtain ⟨rfl, rfl⟩ := pure_run hn
  obtain ⟨bytes, rfl, form⟩ := (signed_run_iff (by decide)).1 hm
  have hrange := form.range (by decide)
  refine ⟨bytes, rfl, ?_⟩
  show SignedForm 64 (Int64.ofInt m).toInt bytes
  rwa [Int64.toInt_ofInt_of_le (by simpa using hrange.1) (by simpa using hrange.2)]

/-- A number of bytes are the first ones of the input. -/
theorem take_run {n : Nat} {s : Bytes} (h : (take n).run input = (.ok s, rest)) :
    input = s ++ rest ∧ s.length = n := by
  simp only [take] at h
  split at h
  · next hn =>
    obtain ⟨hs, rfl⟩ := Prod.mk.inj h
    obtain rfl : input.take n = s := Except.ok.inj hs
    simp [hn]
  · simp at h

/-- What is read in little-endian order are the bytes of the number. -/
theorem sound_littleEndian (size : Nat) :
    (littleEndian size).Sound fun n bytes => n < 256 ^ size ∧ bytes = littleEndianBytes size n := by
  intro input rest n h
  obtain ⟨bytes, mid, htake, hn⟩ := run_bind_eq_ok.1 h
  obtain ⟨rfl, rfl⟩ := take_run htake
  obtain ⟨rfl, rfl⟩ := pure_run hn
  exact ⟨bytes, rfl, foldr_littleEndian_lt bytes, (littleEndianBytes_foldr bytes).symm⟩

/-- What is read behind a size has this size. -/
theorem sound_sized : Decoder.sized.Sound SizedForm := by
  intro input rest s h
  obtain ⟨n, mid, hn, htake⟩ := run_bind_eq_ok.1 h
  obtain ⟨size, rfl, form⟩ := sound_u32 hn
  obtain ⟨rfl, hlength⟩ := take_run htake
  exact ⟨size ++ s, by simp, .mk (hlength ▸ form)⟩

/-- What is read as a value type is the code of a known one. -/
theorem sound_valueType :
    valueType.Sound fun t bytes => bytes = [t.code] ∧ t.isKnown = true := by
  intro input rest t h
  obtain ⟨code, mid, hcode, hof⟩ := run_bind_eq_ok.1 h
  obtain rfl := byte_run hcode
  obtain ⟨ht, rfl⟩ := ofExcept_run hof
  simp only [ValueType.ofKnownCode] at ht
  split at ht
  · next hknown =>
    obtain rfl := Except.ok.inj ht
    exact ⟨[code], rfl, by rw [ValueType.code_ofCode], hknown⟩
  · cases ht

/-! ## Repetition -/

/-- A repetition is sound if each item is. -/
theorem sound_replicate {form : α → Bytes → Prop} (h : d.Sound form) (n : Nat) :
    (replicate d n).Sound fun as bytes =>
      as.length = n ∧ ∃ parts, bytes = parts.flatten ∧ List.Forall₂ form as parts := by
  induction n with
  | zero =>
    intro input rest as hrun
    obtain ⟨rfl, rfl⟩ := pure_run hrun
    exact ⟨[], rfl, rfl, [], rfl, .nil⟩
  | succ n ih =>
    intro input rest as hrun
    obtain ⟨a, mid, ha, hmore⟩ := run_bind_eq_ok.1 hrun
    obtain ⟨as, mid', has, hlist⟩ := run_bind_eq_ok.1 hmore
    obtain ⟨rfl, rfl⟩ := pure_run hlist
    -- The first item has a part of its own, and the others have the parts behind it.
    obtain ⟨part, rfl, hpart⟩ := h ha
    obtain ⟨bytes, rfl, rfl, parts, rfl, hparts⟩ := ih has
    exact ⟨part ++ parts.flatten, by simp, rfl, part :: parts, rfl, .cons hpart hparts⟩

/-- Passing a state along is sound if each step is. -/
theorem sound_iterate {step : σ → Decoder σ} {form : σ → σ → Bytes → Prop}
    (h : ∀ s, (step s).Sound (form s)) (n : Nat) (s : σ) :
    (iterate step n s).Sound fun t bytes =>
      ∃ items, items.length = n ∧ bytes = items.flatten ∧ Chain form s items t := by
  induction n generalizing s with
  | zero =>
    intro input rest t hrun
    obtain ⟨rfl, rfl⟩ := pure_run hrun
    exact ⟨[], rfl, [], rfl, rfl, .nil _⟩
  | succ n ih =>
    intro input rest t hrun
    obtain ⟨u, mid, hu, hmore⟩ := run_bind_eq_ok.1 hrun
    obtain ⟨item, rfl, hitem⟩ := h s hu
    obtain ⟨bytes, rfl, items, rfl, rfl, hitems⟩ := ih u hmore
    exact ⟨item ++ items.flatten, by simp, item :: items, rfl, rfl, .cons hitem hitems⟩

/-! ## Locals -/

/-- What is read as a run of locals is a form of it, and there is room for the locals. -/
private theorem sound_localRun (declared : UInt32) :
    (localRun declared).Sound fun run bytes =>
      LocalRunForm run bytes ∧ run.count ≤ UInt32.ofNat maxLocals - declared := by
  intro input rest run h
  obtain ⟨count, mid, hcount, hrest⟩ := run_bind_eq_ok.1 h
  obtain ⟨type, mid', htype, hbound⟩ := run_bind_eq_ok.1 hrest
  obtain ⟨_, mid'', hcheck, hrun⟩ := run_bind_eq_ok.1 hbound
  obtain ⟨bytes, rfl, form⟩ := sound_u32 hcount
  obtain ⟨_, rfl, rfl, known⟩ := sound_valueType htype
  obtain ⟨few, rfl⟩ := check_run hcheck
  obtain ⟨rfl, rfl⟩ := pure_run hrun
  exact ⟨bytes ++ [type.code], by simp, .mk form known, by simpa using few⟩

/-- What is read as a declaration of locals is a form of its runs. -/
theorem sound_localRuns :
    localRuns.Sound fun runs bytes => ∃ count locals, bytes = count ++ locals.flatten ∧
      UnsignedForm 32 runs.length count ∧ List.Forall₂ LocalRunForm runs locals := by
  -- The total so far does not matter for the form.
  have hfrom : ∀ n declared, (localRunsFrom n declared).Sound fun runs bytes =>
      runs.length = n ∧ ∃ locals, bytes = locals.flatten ∧
        List.Forall₂ LocalRunForm runs locals := by
    intro n
    induction n with
    | zero =>
      intro declared input rest runs h
      obtain ⟨rfl, rfl⟩ := pure_run h
      exact ⟨[], rfl, rfl, [], rfl, .nil⟩
    | succ n ih =>
      intro declared input rest runs h
      obtain ⟨run, mid, hrun, hmore⟩ := run_bind_eq_ok.1 h
      obtain ⟨runs, mid', hruns, hlist⟩ := run_bind_eq_ok.1 hmore
      obtain ⟨rfl, rfl⟩ := pure_run hlist
      obtain ⟨bytes, rfl, form, -⟩ := sound_localRun declared hrun
      obtain ⟨_, rfl, rfl, locals, rfl, forms⟩ := ih _ hruns
      exact ⟨bytes ++ locals.flatten, by simp, rfl, bytes :: locals, rfl, .cons form forms⟩
  intro input rest runs h
  obtain ⟨n, mid, hn, hruns⟩ := run_bind_eq_ok.1 h
  obtain ⟨count, rfl, form⟩ := sound_u32 hn
  obtain ⟨_, rfl, hlength, locals, rfl, forms⟩ := hfrom _ _ hruns
  exact ⟨count ++ locals.flatten, by simp, count, locals, rfl, hlength ▸ form, forms⟩

end Decoder

end WasmLowering
