import Mathlib.Data.List.Dedup
import WasmLowering.Proofs.Outcome
import WasmLowering.Ssa.Intrinsic

/-!
# Names of intrinsics

The name of an intrinsic has its parts between dots. No part contains a dot, so the name determines
the parts, and these determine the base and the types. A table looks an intrinsic up by its name,
and so it declares every intrinsic once, in the order of the first requests.

## Key results

- `decimalDigits_injective`: a number is determined by its digits
- `Intrinsic.name_injective`: an intrinsic is determined by its name
- `IntrinsicTable.declared_declareAll`: what is declared are the first requests
- `IntrinsicTable.answered_requests`: how requests that are made in turn are answered
-/

namespace WasmLowering

/-! ## Digits -/

/-- The digits of a number, with no zeros in front. -/
theorem toList_decimalDigits (n : Nat) : (decimalDigits 1 n).toList = Nat.toDigits 10 n := by
  have hpos : 0 < (Nat.toDigits 10 n).length := Nat.length_toDigits_pos
  simp [decimalDigits, Nat.sub_eq_zero_of_le hpos]

/-- A number is determined by its digits. -/
theorem decimalDigits_injective : Function.Injective (decimalDigits 1) := by
  intro m n h
  have hdigits : Nat.toDigits 10 m = Nat.toDigits 10 n := by
    rw [← toList_decimalDigits, ← toList_decimalDigits, h]
  calc
    m = Nat.ofDigitChars 10 (Nat.toDigits 10 m) 0 := Nat.ofDigitChars_ten_toDigits.symm
    _ = Nat.ofDigitChars 10 (Nat.toDigits 10 n) 0 := by rw [hdigits]
    _ = n := Nat.ofDigitChars_ten_toDigits

/-- Digits are no dots. -/
private theorem dot_not_mem_decimalDigits (n : Nat) : '.' ∉ (decimalDigits 1 n).toList := by
  rw [toList_decimalDigits]
  intro h
  have hdigit := Nat.isDigit_of_mem_toDigits (by decide) (by decide) h
  cases hdigit

namespace Ssa

/-! ## Parts of names -/

/-- A type is determined by its name. -/
theorem ScalarType.overloadName_injective : Function.Injective ScalarType.overloadName := by
  -- The first character tells an integer type from a float type.
  have hfirst : ∀ bits text, "i" ++ decimalDigits 1 bits ≠ "f" ++ text := by
    intro bits text h
    have := congrArg (fun s : String => s.toList.head?) h
    simp at this
  intro a b h
  cases a with
  | int bits =>
    cases b with
    | int bits' =>
      have := decimalDigits_injective (String.append_right_inj _ |>.1 h)
      rw [this]
    | float => exact absurd h (hfirst bits "32")
    | double => exact absurd h (hfirst bits "64")
  | float =>
    cases b with
    | int bits => exact absurd h.symm (hfirst bits "32")
    | float => rfl
    | double => exact absurd h (by decide)
  | double =>
    cases b with
    | int bits => exact absurd h.symm (hfirst bits "64")
    | float => exact absurd h (by decide)
    | double => rfl

/-- The name of a type has no dot. -/
theorem ScalarType.dot_not_mem_overloadName (t : ScalarType) : '.' ∉ t.overloadName.toList := by
  cases t with
  | int bits => simpa [overloadName] using dot_not_mem_decimalDigits bits
  | float => decide
  | double => decide

namespace IntrinsicKind

private theorem mem_all (k : IntrinsicKind) : k ∈ all := by
  cases k <;> decide

/-- The parts of the name of an intrinsic without its types. -/
def parts (k : IntrinsicKind) : List (List Char) :=
  ("llvm." ++ k.name).toList.splitOn '.'

/-- The parts of the name of a base have no dots. -/
private theorem dot_not_mem_parts (k : IntrinsicKind) : ∀ p ∈ k.parts, '.' ∉ p := by
  have hall : ∀ k ∈ all, ∀ p ∈ k.parts, '.' ∉ p := by decide +kernel
  exact hall k k.mem_all

/-- The second part tells the bases apart, whatever follows. -/
private theorem parts_append_inj {k k' : IntrinsicKind} {ps ps' : List (List Char)}
    (h : k.parts ++ ps = k'.parts ++ ps') : k = k' ∧ ps = ps' := by
  -- The first part is the same for all bases.
  have hlength : ∀ k ∈ all, 1 < k.parts.length := by decide +kernel
  have hsecond : ∀ k ∈ all, ∀ k' ∈ all, k.parts[1]? = k'.parts[1]? → k = k' := by decide +kernel
  have hget := congrArg (·[1]?) h
  simp only [List.getElem?_append_left (hlength k k.mem_all),
    List.getElem?_append_left (hlength k' k'.mem_all)] at hget
  obtain rfl := hsecond k k.mem_all k' k'.mem_all hget
  exact ⟨rfl, List.append_cancel_left h⟩

end IntrinsicKind

/-! ## Names -/

/-- More parts are added behind dots. -/
private theorem intercalate_append {ps : List (List Char)} (hne : ps ≠ []) (qs : List (List Char)) :
    ['.'].intercalate (ps ++ qs) = ['.'].intercalate ps ++ qs.flatMap ('.' :: ·) := by
  induction ps with
  | nil => exact absurd rfl hne
  | cons p ps ih =>
    by_cases hps : ps = []
    · -- With one part on the left, along the parts on the right.
      subst hps
      clear ih
      induction qs generalizing p with
      | nil => simp
      | cons q qs ih =>
        have := ih q (by simp)
        rw [List.singleton_append] at this ⊢
        rw [List.intercalate_cons_of_ne_nil (by simp), this]
        simp
    · rw [List.cons_append, List.intercalate_cons_of_ne_nil (by simp [hps]), ih hps,
        List.intercalate_cons_of_ne_nil hps]
      simp

/-- Whether a type is an integer or a float type. -/
def NativeType.isScalar : NativeType → Bool
  | .scalar _ => true
  | .void | .packed _ => false

namespace Intrinsic

/-- The parts of the name of an intrinsic. -/
def parts (i : Intrinsic) : List (List Char) :=
  i.kind.parts ++ i.overloads.map (·.overloadName.toList)

/-- The name of an intrinsic is its parts, with dots between them. -/
private theorem toList_name (i : Intrinsic) : i.name.toList = ['.'].intercalate i.parts := by
  have hfold : ∀ (ts : List ScalarType) (s : String),
      (ts.foldl (fun s t => s ++ "." ++ t.overloadName) s).toList =
        s.toList ++ (ts.map (·.overloadName.toList)).flatMap ('.' :: ·) := by
    intro ts
    induction ts with
    | nil => simp
    | cons t ts ih => simp [ih]
  have hne : i.kind.parts ≠ [] := List.splitOn_ne_nil _ _
  rw [name, hfold, parts, intercalate_append hne, IntrinsicKind.parts, List.intercalate_splitOn]

/-- An intrinsic is determined by its name. -/
theorem name_injective : Function.Injective name := by
  -- No part has a dot, so splitting at the dots gives the parts back.
  have hsplit : ∀ i : Intrinsic, i.name.toList.splitOn '.' = i.parts := by
    intro i
    rw [toList_name]
    refine List.splitOn_intercalate '.' (fun p hp => ?_) ?_
    · obtain hp | hp := List.mem_append.1 hp
      · exact i.kind.dot_not_mem_parts p hp
      · obtain ⟨t, -, rfl⟩ := List.mem_map.1 hp
        exact t.dot_not_mem_overloadName
    · simp [parts, IntrinsicKind.parts, List.splitOn_ne_nil]
  intro i j h
  have hparts : i.parts = j.parts := by rw [← hsplit, ← hsplit, h]
  obtain ⟨hkind, htypes⟩ := IntrinsicKind.parts_append_inj hparts
  have hinjective : Function.Injective fun t : ScalarType => t.overloadName.toList :=
    fun a b h => ScalarType.overloadName_injective (String.toList_inj.1 h)
  have hoverloads : i.overloads = j.overloads := List.map_injective_iff.2 hinjective htypes
  cases i
  cases j
  simp_all

/-- What is asked for to get an intrinsic. -/
def request (i : Intrinsic) : IntrinsicKind × List NativeType :=
  (i.kind, i.overloads.map .scalar)

/-- An intrinsic is determined by what is asked for. -/
private theorem request_injective : Function.Injective request := by
  intro i j h
  obtain ⟨hkind, htypes⟩ := Prod.mk.inj h
  have hscalar : Function.Injective NativeType.scalar := fun _ _ h => NativeType.scalar.inj h
  have hoverloads : i.overloads = j.overloads := List.map_injective_iff.2 hscalar htypes
  cases i
  cases j
  simp_all

/-- The types of an overload are scalars, or the request fails. -/
private theorem mapM_overload (types : List NativeType) :
    (∃ overloads, types = overloads.map .scalar ∧
        types.mapM NativeType.overload = .ok overloads) ∨
      types.all NativeType.isScalar = false ∧
        types.mapM NativeType.overload = .error (.of .overloadType) := by
  induction types with
  | nil => exact .inl ⟨[], rfl, rfl⟩
  | cons type types ih =>
    cases type with
    | scalar t =>
      rw [List.mapM_cons]
      obtain ⟨overloads, rfl, hok⟩ | ⟨hnot, herror⟩ := ih
      · rw [hok]
        exact .inl ⟨t :: overloads, rfl, rfl⟩
      · rw [herror]
        exact .inr ⟨hnot, rfl⟩
    -- The first type that fails decides, whatever follows.
    | void => exact .inr ⟨rfl, rfl⟩
    | packed fields => exact .inr ⟨rfl, rfl⟩

/-- An intrinsic is given at integer and float types, and at no others. -/
private theorem ofTypes_cases (kind : IntrinsicKind) (types : List NativeType) :
    (∃ i : Intrinsic, (kind, types) = i.request ∧ ofTypes kind types = .ok i) ∨
      types.all NativeType.isScalar = false ∧
        ofTypes kind types = .error (.of .overloadType) := by
  unfold ofTypes
  obtain ⟨overloads, rfl, hok⟩ | ⟨hnot, herror⟩ := mapM_overload types
  · rw [hok]
    exact .inl ⟨⟨kind, overloads⟩, rfl, rfl⟩
  · rw [herror]
    exact .inr ⟨hnot, rfl⟩

theorem all_isScalar_request (i : Intrinsic) : i.request.2.all NativeType.isScalar = true := by
  simp [request, NativeType.isScalar]

end Intrinsic

namespace IntrinsicTable

/-! ## Tables -/

variable {t : IntrinsicTable} {i : Intrinsic}

/-- An intrinsic is found where it is declared. -/
private theorem find?_name (t : IntrinsicTable) (i : Intrinsic) :
    t.find? i.name = t.declared.findIdx? (· == i) := by
  have hname : ∀ j : Intrinsic, (j.name == i.name) = (j == i) := by
    intro j
    rw [Bool.eq_iff_iff, beq_iff_eq, beq_iff_eq]
    exact Intrinsic.name_injective.eq_iff
  simp only [find?, hname]

/-- An intrinsic is declared once, behind those before it. -/
private theorem toList_declare (t : IntrinsicTable) (i : Intrinsic) :
    (t.declare i).declared.toList =
      if i ∈ t.declared.toList then t.declared.toList else t.declared.toList ++ [i] := by
  unfold declare get
  rw [find?_name]
  cases hfind : t.declared.findIdx? (· == i) with
  | none =>
    have hnot : i ∉ t.declared.toList := by
      intro h
      have := Array.findIdx?_eq_none_iff.1 hfind i (by simpa using h)
      simp at this
    simp [hnot]
  | some place =>
    obtain ⟨hlt, heq, -⟩ := Array.findIdx?_eq_some_iff_getElem.1 hfind
    have hmem : i ∈ t.declared.toList := by
      rw [← beq_iff_eq.1 heq]
      simp
    simp [hmem]

/-- Declares several intrinsics in turn. -/
def declareAll (t : IntrinsicTable) (is : List Intrinsic) : IntrinsicTable :=
  is.foldl declare t

theorem declareAll_append (t : IntrinsicTable) (is js : List Intrinsic) :
    t.declareAll (is ++ js) = (t.declareAll is).declareAll js :=
  List.foldl_append

/-- A table of the first occurrences in a list goes on as such a table. -/
theorem declared_declareAll {made : List Intrinsic} (h : t.declared.toList = made.eraseDups)
    (is : List Intrinsic) : (t.declareAll is).declared.toList = (made ++ is).eraseDups := by
  induction is generalizing t made with
  | nil =>
    rw [List.append_nil]
    exact h
  | cons i is ih =>
    -- An intrinsic is added only if it is not among those declared.
    have hfirst : (t.declare i).declared.toList = (made ++ [i]).eraseDups := by
      rw [toList_declare, h, List.eraseDups_append]
      by_cases hmem : i ∈ made <;>
        simp [hmem, List.removeAll, List.mem_eraseDups, List.eraseDups_cons]
    have := ih hfirst
    rwa [List.append_assoc] at this

/-- No element is left twice. -/
theorem nodup_eraseDups {α : Type} [DecidableEq α] (l : List α) : l.eraseDups.Nodup := by
  -- What is left after the first element has been taken out is shorter, but no tail.
  induction hn : l.length using Nat.strongRecOn generalizing l with
  | ind n ih =>
    cases l with
    | nil => simp
    | cons a l =>
      rw [List.eraseDups_cons, List.nodup_cons]
      refine ⟨by simp [List.mem_eraseDups], ih _ ?_ _ rfl⟩
      have := List.length_filter_le (fun b => !b == a) l
      simp only [List.length_cons] at hn
      omega

/-- The place of an intrinsic that was asked for. -/
private theorem declared_get (t : IntrinsicTable) (i : Intrinsic) :
    (t.get i).2.declared[(t.get i).1]? = some i := by
  unfold get
  rw [find?_name]
  cases hfind : t.declared.findIdx? (· == i) with
  | none => simp
  | some place =>
    obtain ⟨hlt, heq, -⟩ := Array.findIdx?_eq_some_iff_getElem.1 hfind
    simp [hlt, beq_iff_eq.1 heq]

/-- What is declared stays at its place. -/
private theorem declared_declareAll_of_some {place : Nat} (h : t.declared[place]? = some i)
    (is : List Intrinsic) : (t.declareAll is).declared[place]? = some i := by
  induction is generalizing t with
  | nil => exact h
  | cons j is ih =>
    refine ih ?_
    rw [← Array.getElem?_toList] at h ⊢
    rw [toList_declare]
    -- The table stays, or gets one more intrinsic behind the others.
    split
    · exact h
    · rw [List.getElem?_append_left (List.getElem?_eq_some_iff.1 h).1]
      exact h

/-! ## Requests -/

/-- The answers to several requests in turn, and the table after them. -/
def requests (t : IntrinsicTable) :
    List (IntrinsicKind × List NativeType) → List (Except Fault Nat) × IntrinsicTable
  | [] => ([], t)
  | r :: rs =>
    let first := t.request r.1 r.2
    let later := first.2.requests rs
    (first.1 :: later.1, later.2)

/-- A request that fails changes nothing, and one that succeeds declares its intrinsic. -/
theorem request_cases (t : IntrinsicTable) (r : IntrinsicKind × List NativeType) :
    (∃ i : Intrinsic, r = i.request ∧ t.request r.1 r.2 = (.ok (t.get i).1, t.declare i)) ∨
      r.2.all NativeType.isScalar = false ∧
        t.request r.1 r.2 = (.error (.of .overloadType), t) := by
  unfold request
  obtain ⟨i, hr, hok⟩ | ⟨hnot, herror⟩ := Intrinsic.ofTypes_cases r.1 r.2
  · rw [hok]
    exact .inl ⟨i, hr, rfl⟩
  · rw [herror]
    exact .inr ⟨hnot, rfl⟩

/-- Requests declare the intrinsics of those among them that can be answered. -/
private theorem requests_table (t : IntrinsicTable) (rs : List (IntrinsicKind × List NativeType)) :
    ∃ is : List Intrinsic, is.map Intrinsic.request = rs.filter (·.2.all NativeType.isScalar) ∧
      (t.requests rs).2 = t.declareAll is := by
  induction rs generalizing t with
  | nil => exact ⟨[], rfl, rfl⟩
  | cons r rs ih =>
    unfold requests
    obtain ⟨i, rfl, hrequest⟩ | ⟨hnot, hrequest⟩ := t.request_cases r
    · obtain ⟨is, his, htable⟩ := ih (t.declare i)
      refine ⟨i :: is, ?_, by rw [hrequest, htable]; rfl⟩
      rw [List.filter_cons, if_pos i.all_isScalar_request, List.map_cons, his]
    · obtain ⟨is, his, htable⟩ := ih t
      refine ⟨is, ?_, by rw [hrequest, htable]⟩
      rw [List.filter_cons, if_neg (by simp [hnot]), his]

/-- Each request is answered with the place of its intrinsic in the table at the end. -/
private theorem requests_answer (t : IntrinsicTable) {rs : List (IntrinsicKind × List NativeType)}
    {n : Nat} {r : IntrinsicKind × List NativeType} (h : rs[n]? = some r) :
    (∃ i place, r = i.request ∧ (t.requests rs).1[n]? = some (.ok place) ∧
        (t.requests rs).2.declared[place]? = some i) ∨
      r.2.all NativeType.isScalar = false ∧
        (t.requests rs).1[n]? = some (.error (.of .overloadType)) := by
  induction rs generalizing t n with
  | nil => simp at h
  | cons r' rs ih =>
    unfold requests
    cases n with
    | succ n => exact ih _ h
    | zero =>
      obtain rfl := Option.some.inj h
      obtain ⟨i, rfl, hrequest⟩ | ⟨hnot, hrequest⟩ := t.request_cases r'
      · -- The later requests do not move the intrinsic.
        refine .inl ⟨i, (t.get i).1, rfl, by rw [hrequest]; rfl, ?_⟩
        obtain ⟨is, -, htable⟩ := requests_table (t.declare i) rs
        rw [hrequest, htable]
        exact declared_declareAll_of_some (declared_get t i) is
      · exact .inr ⟨hnot, by rw [hrequest]; rfl⟩

/-- The number of declared intrinsics is that of the different requests that can be answered. -/
private theorem count_requests (rs : List (IntrinsicKind × List NativeType)) :
    (({} : IntrinsicTable).requests rs).2.count =
      (rs.filter (·.2.all NativeType.isScalar)).dedup.length := by
  obtain ⟨is, his, htable⟩ := requests_table {} rs
  have hdeclared := @declared_declareAll {} [] rfl is
  -- It does not matter which of equal intrinsics is kept.
  have hperm : is.eraseDups.Perm is.dedup :=
    (List.perm_ext_iff_of_nodup (nodup_eraseDups is) is.nodup_dedup).2
      fun i => by rw [List.mem_eraseDups, List.mem_dedup]
  calc (({} : IntrinsicTable).requests rs).2.count
      = is.eraseDups.length := by rw [htable, count, ← Array.length_toList, hdeclared]; rfl
    _ = (is.map Intrinsic.request).dedup.length := by
      rw [hperm.length_eq, List.dedup_map_of_injective Intrinsic.request_injective,
        List.length_map]
    _ = _ := by rw [his]

/-- How requests are answered that are made in turn, and what they leave declared. -/
structure Answered (rs : List (IntrinsicKind × List NativeType))
    (answers : List (Except Fault Nat)) (t : IntrinsicTable) : Prop where
  /-- At integer and float types, the answer is the place of the intrinsic. -/
  granted : ∀ (n : Nat) (r : IntrinsicKind × List NativeType), rs[n]? = some r →
    r.2.all NativeType.isScalar = true → ∃ (i : Intrinsic) (place : Nat), r = i.request ∧
      answers[n]? = some (.ok place) ∧ t.declared[place]? = some i
  refused : ∀ (n : Nat) (r : IntrinsicKind × List NativeType), rs[n]? = some r →
    r.2.all NativeType.isScalar = false → answers[n]? = some (.error (.of .overloadType))
  /-- Two requests share a place exactly if they are equal. -/
  same_iff : ∀ (m n : Nat) (r r' : IntrinsicKind × List NativeType) (p q : Nat),
    rs[m]? = some r → rs[n]? = some r' → answers[m]? = some (.ok p) → answers[n]? = some (.ok q) →
      (p = q ↔ r = r')
  count : t.count = (rs.filter (·.2.all NativeType.isScalar)).dedup.length

/-- The requests are answered, in a new table. -/
theorem answered_requests (rs : List (IntrinsicKind × List NativeType)) :
    Answered rs (({} : IntrinsicTable).requests rs).1 (({} : IntrinsicTable).requests rs).2 := by
  obtain ⟨is, -, htable⟩ := requests_table {} rs
  have hnodup : (({} : IntrinsicTable).requests rs).2.declared.toList.Nodup := by
    rw [htable, @declared_declareAll {} [] rfl is]
    exact nodup_eraseDups _
  -- The place that answers a request holds the intrinsic that was asked for.
  have hplace : ∀ (n : Nat) (r : IntrinsicKind × List NativeType) (p : Nat), rs[n]? = some r →
      (({} : IntrinsicTable).requests rs).1[n]? = some (.ok p) →
      ∃ i : Intrinsic, r = i.request ∧
        (({} : IntrinsicTable).requests rs).2.declared[p]? = some i := by
    intro n r p hr hp
    obtain ⟨i, place, hi, hanswer, hdeclared⟩ | ⟨-, hanswer⟩ := requests_answer {} hr
    · obtain rfl := Except.ok.inj (Option.some.inj (hp.symm.trans hanswer))
      exact ⟨i, hi, hdeclared⟩
    · cases Option.some.inj (hp.symm.trans hanswer)
  constructor
  case granted =>
    intro n r hr hscalar
    obtain ⟨i, place, hanswer⟩ | ⟨hnot, -⟩ := requests_answer {} hr
    · exact ⟨i, place, hanswer⟩
    · rw [hscalar] at hnot
      cases hnot
  case refused =>
    intro n r hr hnot
    obtain ⟨i, _, rfl, -⟩ | ⟨-, hanswer⟩ := requests_answer {} hr
    · rw [i.all_isScalar_request] at hnot
      cases hnot
    · exact hanswer
  case same_iff =>
    intro m n r r' p q hr hr' hp hq
    obtain ⟨i, rfl, hi⟩ := hplace m r p hr hp
    obtain ⟨j, rfl, hj⟩ := hplace n r' q hr' hq
    constructor
    · rintro rfl
      rw [Option.some.inj (hi.symm.trans hj)]
    · intro hij
      obtain rfl := Intrinsic.request_injective hij
      rw [← Array.getElem?_toList] at hi hj
      exact (List.getElem?_inj (List.getElem?_eq_some_iff.1 hi).1 hnodup).1 (hi.trans hj.symm)
  case count => exact count_requests rs

end IntrinsicTable

end Ssa

end WasmLowering
