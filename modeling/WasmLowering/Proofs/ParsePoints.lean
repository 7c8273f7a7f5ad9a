import WasmLowering.Proofs.Segments

/-!
# Points of a parse

A parse passes through the frames of a module, and through the entries in their payloads. At any
point of it the table has a history: it comes from the empty table by edits, and the edits that add
something are written in bytes which have been read. What an edit keeps therefore holds at all
points, and what an edit adds is paid for with the bytes of the input.

A section that does not succeed ends the parse, with the failure of the section.

## Key results

- `Loader.Reached.history`: at every point the table has a history in the bytes of the input
- `Loader.Next.loads`, `Loader.Next.fails`: a module loads or fails as its sections do
-/

namespace WasmLowering

/-! ## Histories -/

/-- The bytes that are counted for an edit: those of an entry, and none for a name. -/
inductive EditForm : TableEdit → Bytes → Prop where
  | entry {k : SectionKind} {e : TableEdit} {bytes : Bytes} (form : EntryForm k e bytes) :
      EditForm e bytes
  | name (index : UInt32) (name : Bytes) : EditForm (.setFunctionName index name) []

namespace ModuleTable

/-- The table comes from the empty one by edits that are written in at most `size` bytes. -/
inductive History : ModuleTable → Nat → Prop where
  | empty (size : Nat) : History {} size
  | edit {t u : ModuleTable} {size : Nat} {e : TableEdit} {bytes : Bytes}
      (earlier : History t size) (form : EditForm e bytes) (accepted : t.edit e = .ok u) :
      History u (size + bytes.length)

variable {t u : ModuleTable} {size : Nat}

/-- A history may be given more bytes. -/
theorem History.mono (h : t.History size) {total : Nat} (hle : size ≤ total) : t.History total := by
  induction h generalizing total with
  | empty => exact .empty total
  | @edit t u size e bytes earlier form accepted ih =>
    have hearlier : t.History (total - bytes.length) := ih (by omega)
    have hu := hearlier.edit form accepted
    rwa [Nat.sub_add_cancel (by omega)] at hu

/-- The entries of a section go into the history. -/
theorem History.edits {k : SectionKind} {edits : List TableEdit} {parts : List Bytes}
    (h : t.History size) (edited : t.Edits edits u)
    (forms : List.Forall₂ (EntryForm k) edits parts) :
    u.History (size + parts.flatten.length) := by
  unfold Edits at edited
  induction forms generalizing t size with
  | nil =>
    obtain ⟨⟩ := edited
    exact h
  | cons first _ ih =>
    obtain _ | ⟨accepted, rest⟩ := edited
    have hrest := ih (h.edit (.entry first) accepted) rest
    rwa [Nat.add_assoc, ← List.length_append] at hrest

/-- Names go into the history, too, those apart that no function can take. -/
theorem History.names {names : List (UInt32 × Bytes)} {warnings : Array UInt32}
    (h : t.History size) : (names.foldl applyName (t, warnings)).1.History size := by
  induction names generalizing t warnings with
  | nil => exact h
  | cons entry names ih =>
    rw [List.foldl_cons]
    obtain ⟨u, hu, heq⟩ | heq := applyName_cases t warnings entry
    · rw [heq]
      exact ih (h.edit (.name entry.1 entry.2) hu)
    · rw [heq]
      exact ih h

end ModuleTable

namespace Loader

variable {l l' : Loader} {size : Nat}

private theorem history_applyNames (h : l.table.History size) (map : NameMap) :
    (l.applyNames map).table.History size :=
  h.names

/-- A custom section adds nothing to the bytes of the history. -/
private theorem history_custom {payload : Bytes} (h : l.table.History size)
    (hcustom : l.custom payload = .ok l') : l'.table.History size := by
  simp only [custom] at hcustom
  split at hcustom
  · cases hcustom
  · split at hcustom
    · split at hcustom
      · rw [← Except.ok.inj hcustom]
        exact history_applyNames h _
      · cases hcustom
    · rwa [← Except.ok.inj hcustom]

/-- The payload of a section pays for its edits. -/
theorem Takes.history {k : SectionKind} {payload : Bytes} (takes : l.Takes k payload l')
    (h : l.table.History size) : l'.table.History (size + payload.length) := by
  cases takes with
  | entries _ form edited =>
    obtain ⟨-, forms⟩ := form
    exact (h.edits edited forms).mono (by rw [List.length_append]; omega)
  | number _ form edited => exact h.edit (.entry form) edited
  | code _ _ lowered =>
    -- Bodies do not change the table; their bytes are counted for nothing.
    obtain ⟨_, _, rfl, -⟩ := lowered_bodies lowered
    exact h.mono (by omega)

private theorem history_frame {f : Frame} (h : l.table.History size) (hf : l.frame f = .ok l') :
    l'.table.History (size + f.payload.length) := by
  by_cases hid : f.id = 0
  · rw [frame, if_pos hid] at hf
    exact (history_custom h hf).mono (by omega)
  · obtain ⟨hzero, -⟩ | ⟨-, -, _, -, -, takes⟩ := frame_eq_ok hf
    · exact absurd hzero hid
    · exact takes.history h

/-- The payloads of frames pay for their edits. -/
theorem history_frames {fs : List Frame} (h : l.table.History size)
    (chain : Chain (fun l l' f => l.frame f = .ok l') l fs l') :
    l'.table.History (size + (fs.map (·.payload.length)).sum) := by
  induction chain generalizing size with
  | nil l => exact h
  | cons first _ ih =>
    have hrest := ih (history_frame h first)
    rwa [Nat.add_assoc] at hrest

end Loader

/-- The payloads of the frames of a byte string are no longer than it. -/
theorem Framing.payloads_le (input : Bytes) :
    ((split input).frames.map (·.payload.length)).sum ≤ input.length := by
  fun_induction split input with
  | case1 => simp
  | case2 => simp
  | case3 id rest payload tail hrun _ framing ih =>
    obtain ⟨bytes, rfl, form⟩ := Decoder.sound_sized hrun
    obtain ⟨size⟩ := form
    simp only [List.map_cons, List.sum_cons, List.length_cons, List.length_append]
    have hih : (framing.frames.map (·.payload.length)).sum ≤ tail.length := ih
    omega

/-! ## Points -/

namespace Loader

/-- The loader has passed some frames of the input, and the next one is `f`. -/
def Next (input : Bytes) (l : Loader) (f : Frame) : Prop :=
  ∃ rest before after, Decoder.moduleHeader.run input = (.ok (), rest) ∧
    (Framing.split rest).frames = before ++ f :: after ∧ ({} : Loader).frames before = .ok l

/-- Of the `count` entries in a section `n` have been read, which gave a table, and some bytes are
    left. -/
structure ReadsEntries (l : Loader) (f : Frame) (k : SectionKind) (count : UInt32) (n : Nat)
    (table : ModuleTable) (left : Bytes) : Prop where
  id : f.id = k.id
  list : k.listsEntries = true
  rank : l.rank < sectionRank k.id
  announced : k = .data → l.table.dataCount.all (· == count) = true
  few : n ≤ count.toNat
  read : ∃ rest, Decoder.u32.run f.payload = (.ok count, rest) ∧
    (Decoder.iterate (Decoder.ofKind k) n l.table).run rest = (.ok table, left)

/-- Of the `count` bodies in the code section `n` have been lowered, and some bytes are left. -/
structure ReadsBodies (l : Loader) (f : Frame) (count : UInt32) (n : Nat) (l' : Loader)
    (left : Bytes) : Prop where
  id : f.id = SectionKind.code.id
  rank : l.rank < sectionRank SectionKind.code.id
  declared : count.toNat = l.declared
  few : n ≤ count.toNat
  read : ∃ rest, Decoder.u32.run f.payload = (.ok count, rest) ∧
    (Decoder.iterate bodyEntry n { l with rank := sectionRank SectionKind.code.id }).run rest =
      (.ok l', left)

/-- The points of a parse: between frames, behind some entries or bodies of a section, and behind
    some names of a name section. -/
inductive Reached (input : Bytes) : Loader → Prop where
  | frames {rest : Bytes} {before after : List Frame} {l : Loader}
      (header : Decoder.moduleHeader.run input = (.ok (), rest))
      (split : (Framing.split rest).frames = before ++ after)
      (loaded : ({} : Loader).frames before = .ok l) : Reached input l
  | entries {l : Loader} {f : Frame} {k : SectionKind} {count : UInt32} {n : Nat}
      {table : ModuleTable} {left : Bytes} (next : Next input l f)
      (reads : l.ReadsEntries f k count n table left) :
      Reached input { l with rank := sectionRank k.id, table }
  | bodies {l l' : Loader} {f : Frame} {count : UInt32} {n : Nat} {left : Bytes}
      (next : Next input l f) (reads : l.ReadsBodies f count n l' left) : Reached input l'
  | names {l : Loader} {f : Frame} {rest : Bytes} (n : Nat) (next : Next input l f)
      (id : f.id = 0) (named : Decoder.sized.run f.payload = (.ok (.ofString "name"), rest)) :
      Reached input (l.applyNames ⟨(NameMap.ofSection rest).names.take n, false⟩)

variable {l l' : Loader} {f : Frame} {input : Bytes}

/-- The frames before the next one have been passed. -/
theorem Next.chain (h : Next input l f) :
    ∃ before, Chain (fun l l' f => l.frame f = .ok l') {} before l := by
  obtain ⟨_, before, _, -, -, loaded⟩ := h
  exact ⟨before, frames_eq_ok.1 loaded⟩

/-- The counts agree before the next frame. -/
theorem Next.counted (h : Next input l f) : l.Counted := by
  obtain ⟨_, chain⟩ := h.chain
  exact counted_of_frames chain

/-- The history behind some frames leaves room for the payloads of those that follow. -/
private theorem history_before {rest : Bytes} {before after : List Frame}
    (header : Decoder.moduleHeader.run input = (.ok (), rest))
    (split : (Framing.split rest).frames = before ++ after)
    (loaded : ({} : Loader).frames before = .ok l) :
    ∃ size, l.table.History size ∧
      size + (after.map (·.payload.length)).sum + 8 ≤ input.length := by
  have history := history_frames (.empty 0) (frames_eq_ok.1 loaded)
  -- The payloads of all frames fit into the input, those that have been passed and those to come.
  have hpayloads := Framing.payloads_le rest
  obtain rfl := moduleHeader_run.1 header
  rw [split, List.map_append, List.sum_append] at hpayloads
  refine ⟨_, history, ?_⟩
  simp only [List.length_append, show moduleMagic.length = 4 from rfl,
    show moduleVersion.length = 4 from rfl]
  omega

/-- The history before a frame leaves room for its payload. -/
theorem Next.history (h : Next input l f) :
    ∃ size, l.table.History size ∧ size + f.payload.length + 8 ≤ input.length := by
  obtain ⟨rest, before, after, header, split, loaded⟩ := h
  obtain ⟨size, history, hsize⟩ := history_before header split loaded
  rw [List.map_cons, List.sum_cons] at hsize
  exact ⟨size, history, by omega⟩

/-- The entries that have been read are paid for with the payload. -/
theorem ReadsEntries.history {k : SectionKind} {count : UInt32} {n size : Nat} {table : ModuleTable}
    {left : Bytes} (reads : l.ReadsEntries f k count n table left) (h : l.table.History size) :
    table.History (size + f.payload.length) := by
  obtain ⟨rest, number, read⟩ := reads.read
  obtain ⟨_, hpayload, -⟩ := Decoder.sound_u32 number
  obtain ⟨_, rfl, parts, -, rfl, chain⟩ := Decoder.sound_iterate (Decoder.sound_ofKind k) _ _ read
  obtain ⟨edits, edited, forms⟩ := chain.written
  refine (h.edits edited forms).mono ?_
  rw [hpayload]
  simp only [List.length_append]
  omega

/-- Bodies change lowered functions and intrinsics only. -/
theorem ReadsBodies.eq {count : UInt32} {n : Nat} {left : Bytes}
    (reads : l.ReadsBodies f count n l' left) :
    ∃ functions intrinsics, l' =
        { l with rank := sectionRank SectionKind.code.id, functions, intrinsics } ∧
      functions.size = l.functions.size + n := by
  obtain ⟨rest, -, read⟩ := reads.read
  obtain ⟨_, -, parts, rfl, -, chain⟩ := Decoder.sound_iterate sound_bodyEntry _ _ read
  obtain ⟨bodies, lowered, forms⟩ := chain.written
  rw [← forms.length_eq]
  exact lowered_bodies lowered

/-- At every point of a parse the table has a history in the bytes of the input. -/
theorem Reached.history (h : Reached input l) :
    ∃ size, l.table.History size ∧ size + 8 ≤ input.length := by
  cases h with
  | frames header split loaded =>
    obtain ⟨size, history, hsize⟩ := history_before header split loaded
    exact ⟨size, history, by omega⟩
  -- What has been read of a payload is part of it.
  | entries next reads =>
    obtain ⟨size, history, hsize⟩ := next.history
    exact ⟨_, reads.history history, hsize⟩
  | bodies next reads =>
    obtain ⟨size, history, hsize⟩ := next.history
    obtain ⟨_, _, rfl, -⟩ := reads.eq
    exact ⟨size, history, by omega⟩
  | names n next =>
    obtain ⟨size, history, hsize⟩ := next.history
    exact ⟨size, history_applyNames history _, by omega⟩

/-! ## The outcome of a parse -/

/-- In a module that loads, every section is accepted. -/
theorem Next.loads (h : Next input l f) {loaded : Loader} (hload : loadModule input = .ok loaded) :
    ∃ l', l.frame f = .ok l' := by
  obtain ⟨rest, before, after, header, split, hbefore⟩ := h
  simp only [loadModule, header, framing] at hload
  cases hframes : ({} : Loader).frames (Framing.split rest).frames with
  | error failure => simp [hframes, bind, Except.bind] at hload
  | ok done =>
    rw [split] at hframes
    -- The frames before the next one lead to the same loader as part of all frames.
    obtain ⟨mid, hmid, hrest⟩ := Chain.append.1 (frames_eq_ok.1 hframes)
    obtain rfl := Except.ok.inj (hbefore.symm.trans (frames_eq_ok.2 hmid))
    obtain _ | ⟨first, -⟩ := hrest
    exact ⟨_, first⟩

/-- A frame that fails ends the run, whatever comes after it. -/
private theorem frames_fail {fs after : List Frame} {failure : LoadFailure} {start : Loader}
    (hfs : start.frames fs = .ok l) (hf : l.frame f = .error failure) :
    start.frames (fs ++ f :: after) = .error failure := by
  induction fs generalizing start with
  | nil =>
    obtain rfl := Except.ok.inj hfs
    simp [frames, hf, bind, Except.bind]
  | cons g fs ih =>
    simp only [frames, bind, Except.bind, List.cons_append] at hfs ⊢
    split at hfs
    · cases hfs
    · next mid hmid =>
      simp only [ih hfs]

/-- A section that fails is where the module fails. -/
theorem Next.fails (h : Next input l f) {failure : LoadFailure} (hf : l.frame f = .error failure) :
    loadModule input = .error failure := by
  obtain ⟨rest, before, after, header, split, hbefore⟩ := h
  simp only [loadModule, header, framing, split, frames_fail hbefore hf, bind, Except.bind]

end Loader

end WasmLowering
