import WasmLowering.Proofs.DraftSound

/-!
# Scopes of values in drafts

A scope says which values are available at the start of each block. A draft respects a scope if
every value is defined once, every line uses values that are available there, and every block that
branches to another passes on what is available at the start of that one. The slots of locals are
made in the entry block and may be used in all other blocks.

Each operation on drafts keeps this, under a condition on the values that it uses. A new block may
be given any scope, because no branch leads to it yet.

## Key results

- `Draft.Scoped`: what it means to respect a scope
- `Draft.Scoped.modifyLines`: the lines of a block may be changed
- `Draft.Scoped.append`, `Draft.Scoped.jump`, `Draft.Scoped.newJoin`, …: one lemma for each
  operation
-/

namespace WasmLowering.Ssa

/-! ## Lines -/

@[simp] theorem Line.defines_addEdge (line : Line) (value : Operand) (source : Label) :
    (line.addEdge value source).defines = line.defines := by
  cases line <;> rfl

/-- A phi uses nothing where it stands. -/
theorem Line.uses_eq_nil {line : Line} (h : line.isPhi = true) : line.uses = [] := by
  cases line with
  | phi => rfl
  | _ => cases h

/-- Only phis have edges. -/
theorem Line.edges_eq_nil {line : Line} (h : line.isPhi = false) : line.edges = [] := by
  cases line with
  | phi => cases h
  | _ => rfl

/-- Adding edges changes no definition. -/
private theorem definitions_routeEdges (source : Label) (values : List Operand)
    (lines : List Line) :
    definitions (routeEdges source values lines) = definitions lines := by
  have h := @map_routeEdges source values lines _ Line.defines
    fun line value => line.defines_addEdge value source
  have hsome := congrArg (List.filterMap id) h
  rwa [List.filterMap_map, List.filterMap_map] at hsome

/-- The lines after one has been appended: an old one with the same lines before it, or the new one
    after all others. -/
private theorem eq_of_concat_eq {lines before after : List Line} {last line : Line}
    (h : lines ++ [last] = before ++ line :: after) :
    (∃ rest, lines = before ++ line :: rest) ∨ before = lines ∧ line = last := by
  obtain rfl | ⟨rest, x, rfl⟩ := List.eq_nil_or_concat after
  · obtain ⟨hb, hl⟩ := List.append_singleton_inj.1 h
    exact .inr ⟨hb.symm, hl.symm⟩
  · rw [List.concat_eq_append, ← List.cons_append, ← List.append_assoc] at h
    exact .inl ⟨rest, (List.append_singleton_inj.1 h).1⟩

namespace Draft

/-! ## Scopes -/

/-- A value that a block passes on: it is available at the start of the block or defined in it. -/
def Provides (d : Draft) (avail : Label → Set ValueId) (label : Label) (id : ValueId) : Prop :=
  label ∈ d.labels ∧ (id ∈ avail label ∨ id ∈ definitions (d.code label))

/-- A value that a line may use, after the lines `before` of its block. -/
def Usable (d : Draft) (avail : Label → Set ValueId) (label : Label) (before : List Line)
    (id : ValueId) : Prop :=
  id ∈ definitions before ∨ id ∈ avail label ∨
    label ≠ entryLabel ∧ id ∈ definitions (d.code entryLabel)

/-- A value that no line defines although its number is taken. -/
def Fresh (d : Draft) (id : ValueId) : Prop :=
  id < d.nextValue ∧ ∀ l ∈ d.labels, id ∉ definitions (d.code l)

/-- Values are defined once, and used where they are available. -/
structure Scoped (d : Draft) (avail : Label → Set ValueId) : Prop where
  bound : ∀ l ∈ d.labels, ∀ id ∈ definitions (d.code l), id < d.nextValue
  nodup : ∀ l ∈ d.labels, (definitions (d.code l)).Nodup
  disjoint : ∀ l ∈ d.labels, ∀ m ∈ d.labels, ∀ id ∈ definitions (d.code l),
    id ∈ definitions (d.code m) → l = m
  entry : avail entryLabel = ∅
  outside : ∀ l, l ∉ d.labels → avail l = ∅
  uses : ∀ l ∈ d.labels, ∀ before line after, d.code l = before ++ line :: after →
    ∀ id ∈ line.uses, d.Usable avail l before id
  branches : ∀ source target, d.Branches source target →
    ∀ id ∈ avail target, d.Provides avail source id
  edges : ∀ l ∈ d.labels, ∀ line ∈ d.code l, ∀ value source, (value, source) ∈ line.edges →
    ∀ id ∈ value.ids, d.Provides avail source id

section Scoped

variable {d : Draft} {avail : Label → Set ValueId} {waiting : List Label} {live : Bool}

/-- Skipping a value keeps the scope. -/
theorem Scoped.skipValue (h : d.Scoped avail) : d.skipValue.Scoped avail where
  __ := h
  bound l hl id hid := Nat.lt_succ_of_lt (h.bound l hl id hid)

theorem Scoped.fresh (h : d.Scoped avail) : d.skipValue.Fresh d.nextValue :=
  ⟨Nat.lt_succ_self _, fun l hl hid => Nat.lt_irrefl _ (h.bound l hl _ hid)⟩

/-- What the entry block defines may be used at the end of any block. -/
theorem usable_of_mem_entry {label : Label} {id : ValueId}
    (h : id ∈ definitions (d.code entryLabel)) : d.Usable avail label (d.code label) id := by
  by_cases hl : label = entryLabel
  · exact .inl (hl ▸ h)
  · exact .inr (.inr ⟨hl, h⟩)

theorem Provides.usable {label : Label} {id : ValueId} (h : d.Provides avail label id) :
    d.Usable avail label (d.code label) id :=
  h.2.elim (fun h => .inr (.inl h)) .inl

theorem Scoped.place (h : d.Scoped avail) (label : Label) : (d.place label).Scoped avail :=
  { h with }

/-- The lines of one block may be changed, if what they define is kept and new definitions are of
    fresh values. -/
theorem Scoped.modifyLines (h : d.Scoped avail) (ha : d.Arranged waiting) {label : Label}
    (hl : label ∈ d.labels) {f : Array Line → Array Line} {lines : List Line}
    (hf : (f (d.lines label)).toList = lines)
    (hkeep : definitions (d.code label) ⊆ definitions lines)
    (hdefs : ∀ id ∈ definitions lines, id ∈ definitions (d.code label) ∨ d.Fresh id)
    (hnodup : (definitions lines).Nodup)
    (huses : ∀ before line after, lines = before ++ line :: after →
      ∀ id ∈ line.uses, d.Usable avail label before id)
    (hbranches : ∀ target ∈ lines.flatMap Line.targets, ∀ id ∈ avail target,
      d.Provides avail label id)
    (hedges : ∀ line ∈ lines, ∀ value source, (value, source) ∈ line.edges →
      ∀ id ∈ value.ids, d.Provides avail source id) :
    (d.modifyLines label f).Scoped avail := by
  subst hf
  have hcode := fun {l} (h : l ∈ d.labels) => code_modifyLines ha.numbered hl h f
  -- What was defined is still defined, so what was passed on or could be used is so still.
  have hmono : ∀ l ∈ d.labels,
      definitions (d.code l) ⊆ definitions ((d.modifyLines label f).code l) := by
    intro l hm
    rw [hcode hm]
    split
    · next heq => exact heq ▸ hkeep
    · exact fun _ h => h
  have hprovides : ∀ l id, d.Provides avail l id → (d.modifyLines label f).Provides avail l id :=
    fun l id ⟨hm, hid⟩ => ⟨by simpa using hm, hid.imp_right fun h => hmono l hm h⟩
  -- A definition is an old one, or that of a fresh value in the block that was changed.
  have hdef : ∀ l ∈ d.labels, ∀ id ∈ definitions ((d.modifyLines label f).code l),
      id ∈ definitions (d.code l) ∨ l = label ∧ d.Fresh id := by
    intro l hm id hid
    rw [hcode hm] at hid
    split at hid
    · next heq =>
      subst heq
      exact (hdefs id hid).imp_right fun h => ⟨rfl, h⟩
    · exact .inl hid
  have husable : ∀ l before id, d.Usable avail l before id →
      (d.modifyLines label f).Usable avail l before id := by
    intro l before id hid
    obtain hid | hid | ⟨hne, hid⟩ := hid
    · exact .inl hid
    · exact .inr (.inl hid)
    · exact .inr (.inr ⟨hne, hmono _ ha.entry_mem hid⟩)
  constructor
  case bound =>
    intro l hm id hid
    rw [labels_modifyLines] at hm
    obtain hid | ⟨-, hid⟩ := hdef l hm id hid
    · exact h.bound l hm id hid
    · exact hid.1
  case nodup =>
    intro l hm
    rw [labels_modifyLines] at hm
    rw [hcode hm]
    split
    · exact hnodup
    · exact h.nodup l hm
  case disjoint =>
    intro l hl' m hm' id hid hid'
    rw [labels_modifyLines] at hl' hm'
    -- Of two definitions of one value, none is fresh where the other is old.
    obtain hold | ⟨hlab, hfresh⟩ := hdef l hl' id hid
    · obtain hold' | ⟨-, hfresh'⟩ := hdef m hm' id hid'
      · exact h.disjoint l hl' m hm' id hold hold'
      · exact absurd hold (hfresh'.2 l hl')
    · obtain hold' | ⟨hlab', -⟩ := hdef m hm' id hid'
      · exact absurd hold' (hfresh.2 m hm')
      · rw [hlab, hlab']
  case entry => exact h.entry
  case outside => simpa using h.outside
  case uses =>
    intro l hm before line after heq id hid
    rw [labels_modifyLines] at hm
    rw [hcode hm] at heq
    split at heq
    · next hlab =>
      subst hlab
      exact husable _ _ _ (huses before line after heq id hid)
    · exact husable _ _ _ (h.uses l hm before line after heq id hid)
  case branches =>
    intro source target ⟨hm, ht⟩ id hid
    rw [labels_modifyLines] at hm
    rw [hcode hm] at ht
    split at ht
    · next hlab =>
      subst hlab
      exact hprovides _ _ (hbranches target ht id hid)
    · exact hprovides _ _ (h.branches source target ⟨hm, ht⟩ id hid)
  case edges =>
    intro l hm line hline value source hedge id hid
    rw [labels_modifyLines] at hm
    rw [hcode hm] at hline
    split at hline
    · exact hprovides _ _ (hedges line hline value source hedge id hid)
    · exact hprovides _ _ (h.edges l hm line hline value source hedge id hid)

/-- A line may be appended, if what it uses is available there and what it defines is fresh. -/
theorem Scoped.append (h : d.Scoped avail) (ha : d.Arranged waiting) (line : Line)
    (hphi : line.isPhi = false) (hdefines : ∀ id, line.defines = some id → d.Fresh id)
    (huses : ∀ id ∈ line.uses, d.Usable avail d.current (d.code d.current) id)
    (htargets : ∀ target ∈ line.targets, ∀ id ∈ avail target, d.Provides avail d.current id) :
    (d.append line).Scoped avail := by
  have hc := ha.current_mem
  -- The line defines one value more, or none.
  have hdefs : definitions (d.code d.current ++ [line]) =
      definitions (d.code d.current) ++ line.defines.toList := by
    cases hline : line.defines <;> simp [definitions, hline]
  have hlines : ((d.lines d.current).push line).toList = d.code d.current ++ [line] :=
    Array.toList_push
  -- Definitions stay, new ones are fresh, none is made twice; then uses, branches and edges.
  refine h.modifyLines ha hc hlines ?_ ?_ ?_ ?_ ?_ ?_
  · rw [hdefs]
    exact List.subset_append_left ..
  · intro id hid
    rw [hdefs, List.mem_append, Option.mem_toList] at hid
    exact hid.imp_right (hdefines id)
  · rw [hdefs, List.nodup_append]
    refine ⟨h.nodup _ hc, by cases line.defines <;> simp, ?_⟩
    intro a hold b hnew heq
    exact (hdefines b (Option.mem_toList.1 hnew)).2 _ hc (heq ▸ hold)
  · intro before other after heq id hid
    obtain ⟨rest, hold⟩ | ⟨rfl, rfl⟩ := eq_of_concat_eq heq
    · exact h.uses _ hc before other rest hold id hid
    · exact huses id hid
  · intro target ht id hid
    rw [List.flatMap_append, List.mem_append] at ht
    obtain ht | ht := ht
    · exact h.branches _ target ⟨hc, ht⟩ id hid
    · exact htargets target (by simpa using ht) id hid
  · intro other ho value source hedge
    obtain ho | ho := List.mem_append.1 ho
    · exact h.edges _ hc other ho value source hedge
    · rw [List.mem_singleton.1 ho, line.edges_eq_nil hphi] at hedge
      cases hedge

/-- A line that makes a new value may be appended, if what it uses is available there. -/
theorem Scoped.define (h : d.Scoped avail) (ha : d.Arranged waiting) (line : Line)
    (hphi : line.isPhi = false) (hdefines : line.defines = some d.nextValue)
    (huses : ∀ id ∈ line.uses, d.Usable avail d.current (d.code d.current) id)
    (htargets : line.targets = []) : (d.skipValue.append line).Scoped avail := by
  refine h.skipValue.append ha.skipValue line hphi (fun id hid => ?_) huses (by simp [htargets])
  obtain rfl := Option.some.inj (hdefines.symm.trans hid)
  exact h.fresh

/-- A new block changes nothing about what the others pass on. -/
theorem Provides.newBlock (hn : d.Numbered) (role : BlockRole) (ids : Set ValueId) {label : Label}
    {id : ValueId} (h : d.Provides avail label id) :
    (d.newBlock role).2.Provides (Function.update avail (d.newBlock role).1 ids) label id := by
  obtain ⟨hl, hid⟩ := h
  refine ⟨by simp [hl], ?_⟩
  rw [Function.update_of_ne (newBlock_ne role hn hl), code_newBlock role hn hl]
  exact hid

/-- A new block may be given any scope. -/
theorem Scoped.newBlock (h : d.Scoped avail) (hs : d.Sound waiting live) (role : BlockRole)
    (ids : Set ValueId) :
    (d.newBlock role).2.Scoped (Function.update avail (d.newBlock role).1 ids) := by
  have hn := hs.numbered
  have hcode := fun {l} => @code_newBlock d role hn l
  -- The old blocks keep their scopes, and only they have lines.
  have havail : ∀ l ∈ d.labels, Function.update avail (d.newBlock role).1 ids l = avail l :=
    fun l hl => Function.update_of_ne (newBlock_ne role hn hl) ..
  have hmem : ∀ l, l ∈ (d.newBlock role).2.labels ↔ l ∈ d.labels ∨ l = (d.newBlock role).1 := by
    simp
  -- The new block has no lines, so all that is said about lines is about old blocks.
  have hold : ∀ l ∈ (d.newBlock role).2.labels, ∀ line ∈ (d.newBlock role).2.code l,
      l ∈ d.labels := by
    intro l hl line hline
    obtain hl | rfl := (hmem l).1 hl
    · exact hl
    · rw [code_newBlock_self] at hline
      cases hline
  have hdefs : ∀ l ∈ (d.newBlock role).2.labels, ∀ id ∈ definitions ((d.newBlock role).2.code l),
      l ∈ d.labels ∧ id ∈ definitions (d.code l) := by
    intro l hl id hid
    obtain ⟨line, hline, -⟩ := mem_definitions.1 hid
    have hl := hold l hl line hline
    exact ⟨hl, hcode hl ▸ hid⟩
  constructor
  case bound =>
    intro l hl id hid
    obtain ⟨hl, hid⟩ := hdefs l hl id hid
    exact h.bound l hl id hid
  case nodup =>
    intro l hl
    obtain hl | rfl := (hmem l).1 hl
    · rw [hcode hl]
      exact h.nodup l hl
    · rw [code_newBlock_self]
      exact List.nodup_nil
  case disjoint =>
    intro l hl m hm id hid hid'
    obtain ⟨hl, hid⟩ := hdefs l hl id hid
    obtain ⟨hm, hid'⟩ := hdefs m hm id hid'
    exact h.disjoint l hl m hm id hid hid'
  case entry =>
    rw [havail _ hs.entry_mem]
    exact h.entry
  case outside =>
    intro l hl
    rw [hmem, not_or] at hl
    rw [Function.update_of_ne hl.2]
    exact h.outside l hl.1
  case uses =>
    intro l hl before line after heq id hid
    have hl := hold l hl line (by simp [heq])
    rw [hcode hl] at heq
    unfold Usable
    rw [havail l hl, hcode hs.entry_mem]
    exact h.uses l hl before line after heq id hid
  case branches =>
    intro source target hb id hid
    rw [branches_newBlock hn] at hb
    rw [havail target (hs.targets source target hb)] at hid
    exact (h.branches source target hb id hid).newBlock hn role ids
  case edges =>
    intro l hl line hline value source hedge id hid
    have hl := hold l hl line hline
    rw [hcode hl] at hline
    exact (h.edges l hl line hline value source hedge id hid).newBlock hn role ids

/-- Phis without edges may be added to a waiting block. -/
theorem Scoped.addPhis (h : d.Scoped avail) (ha : d.Arranged waiting) {label : Label}
    (hl : label ∈ d.labels) (honly : OnlyPhis (d.code label)) (types : List ScalarType) :
    (d.addPhis label types).2.Scoped avail := by
  induction types generalizing d with
  | nil => exact h
  | cons type types ih =>
    let phi : Line := .phi d.nextValue type []
    have hlines : ((d.skipValue.lines label).push phi).toList = d.code label ++ [phi] :=
      Array.toList_push
    have hphis : OnlyPhis (d.code label ++ [phi]) := by
      intro line hline
      obtain hline | hline := List.mem_append.1 hline
      · exact honly line hline
      · rw [List.mem_singleton.1 hline]
        rfl
    have hdefs : definitions (d.code label ++ [phi]) =
        definitions (d.code label) ++ [d.nextValue] := definitions_append ..
    have hstep : (d.skipValue.modifyLines label (·.push phi)).Scoped avail := by
      -- A phi without edges uses nothing and leads nowhere.
      refine h.skipValue.modifyLines ha.skipValue hl hlines ?_ ?_ ?_ ?_ ?_ ?_
      · rw [hdefs]
        exact List.subset_append_left ..
      · intro id hid
        rw [hdefs, List.mem_append, List.mem_singleton] at hid
        obtain hid | rfl := hid
        · exact .inl hid
        · exact .inr h.fresh
      · rw [hdefs, List.nodup_append]
        refine ⟨h.nodup _ hl, List.nodup_singleton _, fun a hold b hnew heq => ?_⟩
        rw [heq, List.mem_singleton.1 hnew] at hold
        exact h.fresh.2 _ hl hold
      · intro before line after heq id hid
        rw [line.uses_eq_nil (hphis line (by simp [heq]))] at hid
        cases hid
      · simp [hphis.unended.targets]
      · intro line hline value source hedge
        obtain hline | hline := List.mem_append.1 hline
        · exact h.edges _ hl line hline value source hedge
        · rw [List.mem_singleton.1 hline] at hedge
          cases hedge
    -- The block still has phis only, as the next one needs.
    have hmem : label ∈ (d.skipValue.modifyLines label (·.push phi)).labels := by simpa using hl
    have hcode : OnlyPhis ((d.skipValue.modifyLines label (·.push phi)).code label) := by
      rw [code_modifyLines_self ha.skipValue.numbered hl, hlines]
      exact hphis
    exact ih hstep (ha.skipValue.modifyLines ..) hmem hcode

/-- A branch to a waiting block may take values along that the insertion block passes on. -/
theorem Scoped.jump (h : d.Scoped avail) (hs : d.Sound waiting true) {label : Label}
    (hw : label ∈ waiting) {values : Array Operand}
    (hvalues : ∀ v ∈ values, ∀ id ∈ v.ids, d.Provides avail d.current id)
    (havail : ∀ id ∈ avail label, d.Provides avail d.current id)
    (hsize : values.size = (d.code label).length) :
    ((d.addEdges label values).append (.br label)).Scoped avail := by
  have hl := hs.waiting_mem label hw
  have hdefs := definitions_routeEdges d.current values.toList (d.code label)
  -- Each phi gets an edge with one of the values, and is a phi still.
  have hmem : ∀ line ∈ routeEdges d.current values.toList (d.code label),
      ∃ old ∈ d.code label, ∃ value ∈ values.toList, line = old.addEdge value d.current :=
    fun line hline => mem_routeEdges (by simp [hsize]) hline
  have hphis : OnlyPhis (routeEdges d.current values.toList (d.code label)) :=
    isPhi_routeEdges (hs.onlyPhis label hw)
  have hedges : (d.addEdges label values).Scoped avail := by
    -- The edges change no definition, and their values are available here.
    refine h.modifyLines hs.toArranged hl (toList_addEdges values) ?_ ?_ ?_ ?_ ?_ ?_
    · rw [hdefs]
      exact fun _ h => h
    · intro id hid
      rw [hdefs] at hid
      exact .inl hid
    · rw [hdefs]
      exact h.nodup _ hl
    · intro before line after heq id hid
      rw [line.uses_eq_nil (hphis line (by simp [heq]))] at hid
      cases hid
    · simp [hphis.unended.targets]
    · intro line hline value source hedge id hid
      obtain ⟨old, ho, v, hv, rfl⟩ := hmem line hline
      rw [Line.edges_addEdge (hs.onlyPhis label hw old ho), List.mem_append] at hedge
      obtain hedge | hedge := hedge
      · exact h.edges _ hl old ho value source hedge id hid
      · obtain ⟨rfl, rfl⟩ : value = v ∧ source = d.current := by simpa using hedge
        exact hvalues value (by simpa using hv) id hid
  -- The branch relies on what is available at its target.
  refine hedges.append (hs.toArranged.modifyLines label _) _ rfl (by simp [Line.defines])
    (by simp [Line.uses]) fun target ht id hid => ?_
  rw [List.mem_singleton.1 ht] at hid
  obtain ⟨hc, hprovides⟩ := havail id hid
  refine ⟨by simpa using hc, ?_⟩
  rw [current_addEdges, code_addEdges values hs.numbered hl hc, if_neg (hs.current_ne hw).symm]
  exact hprovides

/-- A value may be defined at the front of the entry block. -/
theorem Scoped.defineAtEntry (h : d.Scoped avail) (ha : d.Arranged waiting)
    (line : ValueId → Line) (hphi : (line d.nextValue).isPhi = false)
    (hdefines : (line d.nextValue).defines = some d.nextValue)
    (huses : (line d.nextValue).uses = []) (htargets : (line d.nextValue).targets = []) :
    (d.defineAtEntry line).2.Scoped avail := by
  have he := ha.entry_mem
  have hlines : (#[line d.nextValue] ++ d.skipValue.lines entryLabel).toList =
      line d.nextValue :: d.code entryLabel := Array.toList_append ..
  have hdefs : definitions (line d.nextValue :: d.code entryLabel) =
      d.nextValue :: definitions (d.code entryLabel) := by
    rw [definitions, List.filterMap_cons_some hdefines]
    rfl
  -- Every line of the entry block gets one more line before it.
  refine h.skipValue.modifyLines ha.skipValue he hlines ?_ ?_ ?_ ?_ ?_ ?_
  · rw [hdefs]
    exact List.subset_cons_self ..
  · intro id hid
    rw [hdefs] at hid
    obtain rfl | hid := List.mem_cons.1 hid
    · exact .inr h.fresh
    · exact .inl hid
  · rw [hdefs, List.nodup_cons]
    exact ⟨h.fresh.2 _ he, h.nodup _ he⟩
  · intro before other after heq id hid
    cases before with
    | nil =>
      obtain ⟨rfl, -⟩ := List.cons.inj heq
      rw [huses] at hid
      cases hid
    | cons first before =>
      obtain ⟨rfl, hrest⟩ := List.cons.inj heq
      refine (h.uses _ he before other after hrest id hid).imp_left fun hid => ?_
      rw [mem_definitions] at hid ⊢
      exact hid.imp fun l hl => ⟨List.mem_cons_of_mem _ hl.1, hl.2⟩
  · intro target ht id hid
    rw [List.flatMap_cons, htargets] at ht
    exact h.branches _ target ⟨he, ht⟩ id hid
  · intro other ho value source hedge
    obtain rfl | ho := List.mem_cons.1 ho
    · rw [Line.edges_eq_nil hphi] at hedge
      cases hedge
    · exact h.edges _ he other ho value source hedge

/-- The phis without edges may be removed from a block that holds nothing but phis and is the
    insertion block. -/
theorem Scoped.dropEmptyPhis (h : d.Scoped avail) (hs : d.Sound waiting true)
    (honly : OnlyPhis (d.code d.current)) (hentry : d.current ≠ entryLabel) :
    (d.dropEmptyPhis d.current).Scoped avail := by
  have hc := hs.current_mem
  have hcode := fun {l} => @code_dropEmptyPhis d d.current hs.numbered hc l
  have hsub : ∀ l ∈ d.labels, ∀ line ∈ (d.dropEmptyPhis d.current).code l, line ∈ d.code l := by
    intro l hl line hline
    rw [hcode hl] at hline
    split at hline
    · exact (List.mem_filter.1 hline).1
    · exact hline
  have hdefs : ∀ l ∈ d.labels, (definitions ((d.dropEmptyPhis d.current).code l)).Sublist
      (definitions (d.code l)) := by
    intro l hl
    rw [hcode hl]
    split
    · exact List.filter_sublist.filterMap _
    · exact .refl _
  -- Nothing depends on what the insertion block defines: it does not branch yet.
  have hprovides : ∀ l id, l ≠ d.current → d.Provides avail l id →
      (d.dropEmptyPhis d.current).Provides avail l id := by
    intro l id hne ⟨hl, hid⟩
    refine ⟨by simpa using hl, ?_⟩
    rwa [hcode hl, if_neg hne]
  have hbranches : ∀ source target, (d.dropEmptyPhis d.current).Branches source target →
      d.Branches source target := by
    intro source target ⟨hl, ht⟩
    rw [labels_dropEmptyPhis] at hl
    obtain ⟨line, hline, ht⟩ := List.mem_flatMap.1 ht
    exact ⟨hl, List.mem_flatMap.2 ⟨line, hsub source hl line hline, ht⟩⟩
  have hne : ∀ source target, d.Branches source target → source ≠ d.current :=
    fun source target hb heq => hs.not_branches target (heq ▸ hb)
  constructor
  case bound =>
    intro l hl id hid
    rw [labels_dropEmptyPhis] at hl
    exact h.bound l hl id ((hdefs l hl).subset hid)
  case nodup =>
    intro l hl
    rw [labels_dropEmptyPhis] at hl
    exact (h.nodup l hl).sublist (hdefs l hl)
  case disjoint =>
    intro l hl m hm id hid hid'
    rw [labels_dropEmptyPhis] at hl hm
    exact h.disjoint l hl m hm id ((hdefs l hl).subset hid) ((hdefs m hm).subset hid')
  case entry => exact h.entry
  case outside => simpa using h.outside
  case uses =>
    intro l hl before line after heq id hid
    rw [labels_dropEmptyPhis] at hl
    by_cases hcur : l = d.current
    · have hline : line ∈ d.code l := hsub l hl line (by simp [heq])
      rw [line.uses_eq_nil (honly line (hcur ▸ hline))] at hid
      cases hid
    · rw [hcode hl, if_neg hcur] at heq
      unfold Usable
      rw [hcode hs.entry_mem, if_neg hentry.symm]
      exact h.uses l hl before line after heq id hid
  case branches =>
    intro source target hb id hid
    have hb := hbranches source target hb
    exact hprovides _ _ (hne source target hb) (h.branches source target hb id hid)
  case edges =>
    intro l hl line hline value source hedge id hid
    rw [labels_dropEmptyPhis] at hl
    have hline := hsub l hl line hline
    -- Only a phi has an edge, and the block of the edge is one that branches here.
    have hphi : line.isPhi = true := by
      by_contra hphi
      rw [Line.edges_eq_nil (by simpa using hphi)] at hedge
      cases hedge
    have hb := ((hs.edges l hl line hline hphi).2 source).1 (List.mem_map_of_mem hedge)
    exact hprovides _ _ (hne source l hb) (h.edges l hl line hline value source hedge id hid)

/-! ## Combined operations -/

/-- A new block with phis changes nothing about what the others pass on. -/
theorem Provides.newJoin (hn : d.Numbered) (role : BlockRole) (types : List ScalarType)
    (ids : Set ValueId) {label : Label} {id : ValueId} (h : d.Provides avail label id) :
    (d.newJoin role types).Provides (Function.update avail (d.newBlock role).1 ids) label id := by
  have hne := newBlock_ne role hn h.1
  obtain ⟨hl, hid⟩ := h.newBlock hn role ids
  refine ⟨by simpa [Draft.newJoin] using hl, ?_⟩
  rw [Draft.newJoin, code_addPhis (hn.newBlock role) (by simp) types hl, if_neg hne]
  exact hid

/-- A new block with phis may be given any scope. -/
theorem Scoped.newJoin (h : d.Scoped avail) (hs : d.Sound waiting live) (role : BlockRole)
    (types : List ScalarType) (ids : Set ValueId) :
    (d.newJoin role types).Scoped (Function.update avail (d.newBlock role).1 ids) := by
  refine (h.newBlock hs role ids).addPhis (hs.newBlock role).toArranged (by simp) ?_ types
  rw [code_newBlock_self]
  exact fun _ hline => absurd hline List.not_mem_nil

/-- A new block that is gone on to may be given what the insertion block passes on. -/
theorem Scoped.goOn (h : d.Scoped avail) (hs : d.Sound waiting live) (role : BlockRole)
    {ids : Set ValueId} (hids : ∀ id ∈ ids, d.Provides avail d.current id) :
    (d.goOn role).Scoped (Function.update avail (d.newBlock role).1 ids) := by
  refine Scoped.place ((h.newBlock hs role ids).append (hs.newBlock role).toArranged _ rfl
    (by simp [Line.defines]) (by simp [Line.uses]) fun target ht id hid => ?_) _
  rw [List.mem_singleton.1 ht, Function.update_self] at hid
  exact (hids id hid).newBlock hs.numbered role ids

/-- Two new blocks that are branched to may be given what the insertion block passes on. -/
theorem Scoped.split (h : d.Scoped avail) (hs : d.Sound waiting live) (first second : BlockRole)
    (line : Line) (ids ids' : Set ValueId) (hphi : line.isPhi = false)
    (hdefines : line.defines = none) (huses : ∀ id ∈ line.uses, d.Provides avail d.current id)
    (htargets : line.targets ⊆
      [(d.newBlock first).1, ((d.newBlock first).2.newBlock second).1])
    (hids : ∀ id ∈ ids, d.Provides avail d.current id)
    (hids' : ∀ id ∈ ids', d.Provides avail d.current id) :
    (((d.newBlock first).2.newBlock second).2.append line).Scoped
      (Function.update (Function.update avail (d.newBlock first).1 ids)
        ((d.newBlock first).2.newBlock second).1 ids') := by
  -- What the insertion block passes on, it passes on after two new blocks as well.
  have hfirst := hs.newBlock first
  have hprovides : ∀ id, d.Provides avail d.current id → Provides _
      (Function.update (Function.update avail (d.newBlock first).1 ids)
        ((d.newBlock first).2.newBlock second).1 ids') d.current id :=
    fun id hid => (hid.newBlock hs.numbered first ids).newBlock hfirst.numbered second ids'
  refine ((h.newBlock hs first ids).newBlock hfirst second ids').append
    (hfirst.newBlock second).toArranged _ hphi (by simp [hdefines])
    (fun id hid => (hprovides id (huses id hid)).usable) fun target ht id hid => ?_
  -- A target is the second new block or the first, and both have what the insertion block passes
  -- on.
  apply hprovides id
  by_cases heq : target = ((d.newBlock first).2.newBlock second).1
  · rw [heq, Function.update_self] at hid
    exact hids' id hid
  · have htarget : target = (d.newBlock first).1 := by simpa [heq] using htargets ht
    rw [Function.update_of_ne heq, htarget, Function.update_self] at hid
    exact hids id hid

/-- The two arms of a conditional may be given what the insertion block passes on. -/
theorem Scoped.fork (h : d.Scoped avail) (hs : d.Sound waiting live) {condition : Operand}
    (hcond : ∀ id ∈ condition.ids, d.Provides avail d.current id) {ids : Set ValueId}
    (hids : ∀ id ∈ ids, d.Provides avail d.current id) :
    (d.fork condition).Scoped
      (Function.update (Function.update avail d.arms.1 ids) d.arms.2 ids) :=
  h.split hs .ifThen .ifElse (.condBr condition d.arms.1 d.arms.2) ids ids rfl rfl hcond
    (fun _ ht => ht) hids hids

/-- The block after a guard may be given what the insertion block passes on. -/
theorem Scoped.guard (h : d.Scoped avail) (hs : d.Sound waiting true) {condition : Operand}
    (hcond : ∀ id ∈ condition.ids, d.Provides avail d.current id) {ids : Set ValueId}
    (hids : ∀ id ∈ ids, d.Provides avail d.current id) :
    (d.guard condition).Scoped (Function.update (Function.update avail (d.newBlock .truncTrap).1 ∅)
      ((d.newBlock .truncTrap).2.newBlock .truncOk).1 ids) := by
  let trap := (d.newBlock .truncTrap).1
  let ok := ((d.newBlock .truncTrap).2.newBlock .truncOk).1
  -- Both blocks are new, and the branch goes to either of them.
  have hsplit := h.split hs .truncTrap .truncOk (.condBr condition ok trap) ∅ ids rfl rfl hcond
    (by simp [Line.targets, ok, trap]) (by simp) hids
  have hblocks := ((hs.newBlock .truncTrap).newBlock .truncOk).toArranged
  have ha := ((hblocks.append (.condBr condition ok trap)).perm (.swap ..)).place
  have htrap := (hsplit.place trap).append ha .trap rfl (by simp [Line.defines])
    (by simp [Line.uses]) (by simp [Line.targets])
  exact (htrap.append (ha.append _) .unreachable rfl (by simp [Line.defines]) (by simp [Line.uses])
    (by simp [Line.targets])).place ok

/-- What a block defines stays defined when lines are appended. -/
theorem definitions_code_append (ha : d.Arranged waiting) (line : Line) {label : Label}
    (hl : label ∈ d.labels) :
    definitions (d.code label) ⊆ definitions ((d.append line).code label) := by
  rw [code_append line ha.numbered ha.current_mem hl]
  split
  · rw [definitions_append]
    exact List.subset_append_left ..
  · exact fun _ h => h

theorem Provides.append (ha : d.Arranged waiting) (line : Line) {label : Label} {id : ValueId}
    (h : d.Provides avail label id) : (d.append line).Provides avail label id :=
  ⟨by simpa using h.1, h.2.imp_right fun hid => definitions_code_append ha line h.1 hid⟩

/-- An appended line that defines a value provides it. -/
theorem provides_append (ha : d.Arranged waiting) {line : Line} {id : ValueId}
    (h : line.defines = some id) : (d.append line).Provides avail d.current id := by
  refine ⟨by simpa using ha.current_mem, .inr ?_⟩
  rw [code_append line ha.numbered ha.current_mem ha.current_mem, if_pos rfl, mem_definitions]
  exact ⟨line, by simp, h⟩

/-- Operands may be stored in the fields of a structure of the entry block. -/
theorem Scoped.storeFields (h : d.Scoped avail) (ha : d.Arranged waiting) {slot : ValueId}
    (hslot : slot ∈ definitions (d.code entryLabel)) (index : Nat) {values : List Operand}
    (hvalues : ∀ v ∈ values, ∀ id ∈ v.ids, d.Provides avail d.current id) :
    (d.storeFields slot index values).Scoped avail := by
  induction values generalizing d index with
  | nil => exact h
  | cons v values ih =>
    let field : Line := .field d.nextValue index slot
    let store : Line := .store v d.nextValue
    have ha' := ha.skipValue.append field
    have hfield : (d.skipValue.append field).Scoped avail :=
      h.define ha field rfl rfl
        (fun id hid => List.mem_singleton.1 hid ▸ usable_of_mem_entry hslot) rfl
    -- The operand was passed on before, and the place of the field is the value of the line before.
    have hstore : ((d.skipValue.append field).append store).Scoped avail := by
      refine hfield.append ha' store rfl (by simp [store, Line.defines]) ?_
        (by simp [store, Line.targets])
      intro id hid
      obtain hid | hid := List.mem_append.1 hid
      · exact (Provides.append ha.skipValue field (hvalues v List.mem_cons_self id hid)).usable
      · rw [List.mem_singleton.1 hid]
        exact (provides_append ha.skipValue rfl).usable
    refine ih hstore (ha'.append store) ?_ (index + 1) fun w hw id hid => ?_
    · exact definitions_code_append ha' store (by simpa using ha.entry_mem)
        (definitions_code_append ha.skipValue field ha.entry_mem hslot)
    · exact (Provides.append ha.skipValue field
        (hvalues w (List.mem_cons_of_mem _ hw) id hid)).append ha' store

/-- Storing fields keeps what the entry block defines. -/
private theorem definitions_storeFields (ha : d.Arranged waiting) (slot : ValueId) (index : Nat)
    (values : List Operand) :
    definitions (d.code entryLabel) ⊆
      definitions ((d.storeFields slot index values).code entryLabel) := by
  induction values generalizing d index with
  | nil => exact fun _ h => h
  | cons v values ih =>
    let field : Line := .field d.nextValue index slot
    have ha' := ha.skipValue.append field
    intro id hid
    refine ih (ha'.append _) (index + 1) ?_
    exact definitions_code_append ha' _ (by simpa using ha.entry_mem)
      (definitions_code_append ha.skipValue field ha.entry_mem hid)

/-- Operands that the insertion block passes on may be returned in a structure. -/
theorem Scoped.retPacked (h : d.Scoped avail) (ha : d.Arranged waiting) (fields : List ScalarType)
    {values : List Operand} (hvalues : ∀ v ∈ values, ∀ id ∈ v.ids, d.Provides avail d.current id) :
    (d.retPacked fields values).Scoped avail := by
  let alloca : ValueId → Line := (.alloca · (.packed fields) .ret)
  have hcode := fun {l} => @code_defineAtEntry d ha.numbered ha.entry_mem alloca l
  have ha₁ : (d.defineAtEntry alloca).2.Arranged waiting := ha.skipValue.modifyLines ..
  have h₁ : (d.defineAtEntry alloca).2.Scoped avail := h.defineAtEntry ha alloca rfl rfl rfl rfl
  -- The slot is made in the entry block, and so it can be used anywhere.
  have hslot : d.nextValue ∈ definitions ((d.defineAtEntry alloca).2.code entryLabel) := by
    rw [hcode ha.entry_mem, if_pos rfl]
    exact List.mem_cons_self
  have hvalues₁ : ∀ v ∈ values, ∀ id ∈ v.ids,
      (d.defineAtEntry alloca).2.Provides avail d.current id := by
    intro v hv id hid
    obtain ⟨hc, hid⟩ := hvalues v hv id hid
    refine ⟨by simpa [defineAtEntry_eq] using hc, hid.imp_right fun hid => ?_⟩
    rw [hcode hc]
    split
    · exact List.mem_cons_of_mem _ hid
    · exact hid
  -- The fields are stored here, and the structure is loaded from them.
  let d₂ := (d.defineAtEntry alloca).2.storeFields d.nextValue 0 values
  have ha₂ : d₂.Arranged waiting := ha₁.storeFields ..
  have h₂ : d₂.Scoped avail := h₁.storeFields ha₁ hslot 0 hvalues₁
  have hslot₂ : d.nextValue ∈ definitions (d₂.code entryLabel) :=
    definitions_storeFields ha₁ d.nextValue 0 values hslot
  have h₃ : (d₂.skipValue.append (.loadPacked d₂.nextValue fields d.nextValue)).Scoped avail :=
    h₂.define ha₂ _ rfl rfl
      (fun id hid => List.mem_singleton.1 hid ▸ usable_of_mem_entry hslot₂) rfl
  refine h₃.append (ha₂.skipValue.append _) _ rfl (by simp [Line.defines]) (fun id hid => ?_)
    (by simp [Line.targets])
  rw [List.mem_singleton.1 hid]
  exact (provides_append ha₂.skipValue rfl).usable

end Scoped

end Draft

end WasmLowering.Ssa
