import Mathlib.Data.Finset.Card
import Mathlib.Data.Finset.Range
import Mathlib.Data.List.MinMax
import MiniC.Proofs.Copies

set_option autoImplicit false

/-! # How deep struct values are nested

A value that can be laid open is no part of itself: so no struct value comes twice on the way to a
part, and a value is nested at most as deep as there are struct values, with the arrays between them
added. So deep does a copy go, and it ends with a result. -/

namespace MiniC

/-! ## The depth of a shape -/

namespace Shape

/-- How deep structs and arrays are nested. -/
def depth : Shape → Nat
  | .plain _ => 0
  | .struct _ _ _ parts => depthAll parts + 1
  | .array _ _ _ parts => depthAll parts + 1
where
  /-- How deep structs and arrays are nested in several values. -/
  depthAll : List Shape → Nat
    | [] => 0
    | s :: rest => max s.depth (depthAll rest)

theorem depth_le_depthAll {s : Shape} {parts : List Shape} (h : s ∈ parts) :
    s.depth ≤ depth.depthAll parts := by
  induction parts with
  | nil => cases h
  | cons t parts ih =>
    rcases List.mem_cons.mp h with rfl | h
    · exact Nat.le_max_left _ _
    · exact (ih h).trans (Nat.le_max_right _ _)

end Shape

/-- A field has at most the largest rank. -/
theorem StructTable.rankOf_le (table : StructTable) (tag name : String) :
    table.rankOf tag name ≤ table.largestRank := by
  unfold rankOf
  split
  · exact Nat.zero_le _
  · rename_i f hf
    obtain ⟨s, hs, hf⟩ := Option.bind_eq_some_iff.mp hf
    obtain ⟨decl, -, hdecl⟩ := Option.bind_eq_some_iff.mp hs
    have hmem : f ∈ table.decls.toList.flatMap (·.fields) :=
      List.mem_flatMap.mpr ⟨s, (Array.mem_of_getElem? hdecl).val, List.mem_of_find?_eq_some hf⟩
    exact List.le_max_of_le' 0 (List.mem_map.mpr ⟨f, hmem, rfl⟩) (Nat.le_refl _)

namespace Machine

variable {m : Machine}

/-! ## Shapes of parts -/

theorem UnfoldsAll.exists_of_mem {values : List (Nat × Value)} {parts : List Shape}
    (h : m.UnfoldsAll values parts) {part : Nat × Value} (hpart : part ∈ values) :
    ∃ s ∈ parts, m.Unfolds part.1 part.2 s := by
  induction parts generalizing values with
  | nil =>
    cases h
    cases hpart
  | cons s parts ih =>
    cases h with
    | cons hfirst hrest =>
      rcases List.mem_cons.mp hpart with rfl | hpart
      · exact ⟨s, List.mem_cons_self, hfirst⟩
      · obtain ⟨t, ht, hunfolds⟩ := ih hrest hpart
        exact ⟨t, List.mem_cons_of_mem _ ht, hunfolds⟩

mutual

/-- A value has one shape only. -/
theorem Unfolds.unique {rank rank' : Nat} {v : Value} {s t : Shape} (h : m.Unfolds rank v s)
    (h' : m.Unfolds rank' v t) (hrank : v.IsPlain rank ↔ v.IsPlain rank')
    (hsame : ∀ p, v = .pointer p → rank = rank') : s = t := by
  cases h with
  | plain hplain =>
    cases h' with
    | plain _ => rfl
    | struct _ _ => exact hplain.elim
    | array _ _ => exact absurd (hrank.mp hplain) (Nat.succ_ne_zero _)
  | struct hrecord hparts =>
    cases h' with
    | plain hplain => exact hplain.elim
    | struct hrecord' hparts' =>
      cases Option.some.inj (hrecord.symm.trans hrecord')
      rw [hparts.unique hparts']
  | array hbuffer hparts =>
    cases h' with
    | plain hplain => exact absurd (hrank.mpr hplain) (Nat.succ_ne_zero _)
    | array hbuffer' hparts' =>
      cases Option.some.inj (hbuffer.symm.trans hbuffer')
      cases hsame _ rfl
      rw [hparts.unique hparts']

theorem UnfoldsAll.unique {values : List (Nat × Value)} {ss ts : List Shape}
    (h : m.UnfoldsAll values ss) (h' : m.UnfoldsAll values ts) : ss = ts := by
  cases h with
  | nil =>
    cases h'
    rfl
  | cons hfirst hrest =>
    cases h' with
    | cons hfirst' hrest' =>
      rw [hfirst.unique hfirst' Iff.rfl fun _ _ => rfl, hrest.unique hrest']

end

mutual

/-- A struct value that belongs to a value is nested no deeper than the value. -/
theorem Unfolds.exists_part {rank : Nat} {v : Value} {s : Shape} (h : m.Unfolds rank v s)
    {id : Nat} (hid : .record id ∈ s.locations) :
    ∃ t, m.Unfolds 0 (.record id) t ∧ t.depth ≤ s.depth := by
  cases h with
  | plain _ => cases hid
  | struct hrecord hparts =>
    rcases List.mem_cons.mp hid with hid | hid
    · cases hid
      exact ⟨_, .struct hrecord hparts, Nat.le_refl _⟩
    · obtain ⟨t, ht, hdepth⟩ := hparts.exists_part hid
      exact ⟨t, ht, hdepth.trans (Nat.le_succ _)⟩
  | array hbuffer hparts =>
    rcases List.mem_cons.mp hid with hid | hid
    · cases hid
    · obtain ⟨t, ht, hdepth⟩ := hparts.exists_part hid
      exact ⟨t, ht, hdepth.trans (Nat.le_succ _)⟩

theorem UnfoldsAll.exists_part {values : List (Nat × Value)} {parts : List Shape}
    (h : m.UnfoldsAll values parts) {id : Nat}
    (hid : .record id ∈ Shape.locations.locationsAll parts) :
    ∃ t, m.Unfolds 0 (.record id) t ∧ t.depth ≤ Shape.depth.depthAll parts := by
  cases h with
  | nil => cases hid
  | cons hfirst hrest =>
    rcases List.mem_append.mp hid with hid | hid
    · obtain ⟨t, ht, hdepth⟩ := hfirst.exists_part hid
      exact ⟨t, ht, hdepth.trans (Nat.le_max_left _ _)⟩
    · obtain ⟨t, ht, hdepth⟩ := hrest.exists_part hid
      exact ⟨t, ht, hdepth.trans (Nat.le_max_right _ _)⟩

end

/-- A struct value is no part of itself. -/
theorem Unfolds.not_mem_parts {rank id : Nat} {tag : String} {names : List String}
    {parts : List Shape} (h : m.Unfolds rank (.record id) (.struct id tag names parts)) :
    .record id ∉ Shape.locations.locationsAll parts := by
  intro hid
  cases h with
  | struct hrecord hparts =>
    obtain ⟨t, ht, hdepth⟩ := hparts.exists_part hid
    have hself : m.Unfolds rank (.record id) (.struct id _ _ parts) := .struct hrecord hparts
    have hsame := ht.unique hself Iff.rfl nofun
    rw [hsame] at hdepth
    exact Nat.not_succ_le_self _ hdepth

/-! ## How deep a value is nested -/

mutual

/-- A value is nested at most as deep as its rank and, for each struct value that belongs to it, the
ranks of the fields allow. -/
theorem Unfolds.depth_le {rank : Nat} {v : Value} {s : Shape} (h : m.Unfolds rank v s)
    {ids : Finset Nat} (hids : ∀ id, .record id ∈ s.locations → id ∈ ids) :
    s.depth ≤ rank + (m.structs.largestRank + 1) * ids.card := by
  cases h with
  | plain _ => exact Nat.zero_le _
  | struct hrecord hparts =>
    rename_i id record parts
    have hid : id ∈ ids := hids id List.mem_cons_self
    have hcard := Finset.card_erase_add_one hid
    have hstruct : m.Unfolds rank (.record id) (.struct id _ _ parts) := .struct hrecord hparts
    have herase : ∀ other, .record other ∈ Shape.locations.locationsAll parts →
        other ∈ ids.erase id := fun other hother =>
      Finset.mem_erase.mpr ⟨fun heq => hstruct.not_mem_parts (heq ▸ hother),
        hids other (List.mem_cons_of_mem _ hother)⟩
    have hdepth := hparts.depth_le
      (List.forall_mem_map.mpr fun field _ => m.structs.rankOf_le record.tag field.1) herase
    rw [Shape.depth, ← hcard, Nat.mul_succ]
    omega
  | array hbuffer hparts =>
    rename_i rank p values parts
    have hdepth := hparts.depth_le
      (List.forall_mem_map.mpr fun _ _ => Nat.le_refl rank)
      fun id hid => hids id (List.mem_cons_of_mem _ hid)
    rw [Shape.depth]
    omega

theorem UnfoldsAll.depth_le {values : List (Nat × Value)} {parts : List Shape}
    (h : m.UnfoldsAll values parts) {r : Nat} (hranks : ∀ part ∈ values, part.1 ≤ r)
    {ids : Finset Nat} (hids : ∀ id, .record id ∈ Shape.locations.locationsAll parts → id ∈ ids) :
    Shape.depth.depthAll parts ≤ r + (m.structs.largestRank + 1) * ids.card := by
  cases h with
  | nil => exact Nat.zero_le _
  | cons hfirst hrest =>
    obtain ⟨hrank, hranks⟩ := List.forall_mem_cons.mp hranks
    have hdepth := hfirst.depth_le fun id hid => hids id (List.mem_append_left _ hid)
    have hdepths := hrest.depth_le hranks fun id hid => hids id (List.mem_append_right _ hid)
    exact Nat.max_le.mpr ⟨hdepth.trans (Nat.add_le_add_right hrank _), hdepths⟩

end

/-- A value is nested at most as deep as the struct values of a state and the arrays among their
fields allow. -/
theorem Unfolds.depth_le_records {v : Value} {s : Shape} (h : m.Unfolds 0 v s) :
    s.depth ≤ (m.structs.largestRank + 1) * m.records.all.size := by
  have hids : ∀ id, .record id ∈ s.locations → id ∈ Finset.range m.records.all.size :=
    fun id hid => Finset.mem_range.mpr (h.made _ hid)
  have hdepth := h.depth_le hids
  rwa [Nat.zero_add, Finset.card_range] at hdepth

end Machine

/-! ## Copies that succeed -/

namespace Run

variable {m m₁ : Machine}

/-- Steps of which each succeeds wherever everything of an earlier state is still there do so one
after another. -/
theorem exists_exec_mapM {α β : Type} {f : α → Run β} {l : List α}
    (hf : ∀ a ∈ l, ∀ m₁, m.Spares m₁ → ∃ b m₂, (f a).exec m₁ = .ok b m₂ ∧ m₁.Spares m₂)
    (hspares : m.Spares m₁) : ∃ bs m₂, (l.mapM f).exec m₁ = .ok bs m₂ := by
  induction l generalizing m₁ with
  | nil => exact ⟨[], m₁, rfl⟩
  | cons a l ih =>
    obtain ⟨b, mid, hfirst, hmid⟩ := hf a List.mem_cons_self m₁ hspares
    obtain ⟨bs, m₂, hrest⟩ :=
      ih (fun c hc => hf c (List.mem_cons_of_mem a hc)) (hspares.trans hmid)
    refine ⟨b :: bs, m₂, ?_⟩
    rw [List.mapM_cons, Traced.exec_bind_of_ok _ hfirst, Traced.exec_bind_of_ok _ hrest]
    rfl

/-- A copy of a value that can be laid open succeeds if it may go as deep as the value is nested. -/
theorem exists_copied_copyWithin {depth rank : Nat} {v : Value} {s : Shape}
    (h : m.Unfolds rank v s) (hdepth : s.depth ≤ depth) (hspares : m.Spares m₁) :
    ∃ w m₂, (copyWithin depth rank v).exec m₁ = .ok w m₂ ∧ m₁.Adds m₂ ∧
      Copied m m₁ m₂ (rank, v) (rank, w) := by
  induction depth generalizing rank v s m₁ with
  | zero =>
    cases h with
    | plain hplain =>
      rw [copyWithin_of_isPlain hplain]
      exact ⟨v, m₁, rfl, copied_of_isPlain hplain m m₁⟩
    | struct _ _ => cases hdepth
    | array _ _ => cases hdepth
  | succ depth ih =>
    cases h with
    | plain hplain =>
      rw [copyWithin_of_isPlain hplain]
      exact ⟨v, m₁, rfl, copied_of_isPlain hplain m m₁⟩
    | struct hrecord hparts =>
      rename_i id record parts
      -- The fields are copied in a machine in which other copies were added, where the record is
      -- still what it was.
      have hget : m₁.records.get id = record := by
        have hsame : m₁.records.all[id]? = m.records.all[id]? :=
          hspares.same (.record id) (Array.getElem?_eq_some_iff.mp hrecord).1
        rw [Records.get, hsame, hrecord]
        rfl
      have hfield : ∀ field ∈ record.fields, ∀ m₁, m.Spares m₁ → ∃ copied m₂,
          (do return (field.1, ← copyWithin depth (m.structs.rankOf record.tag field.1) field.2) :
            Run (String × Value)).exec m₁ = .ok copied m₂ ∧ m₁.Adds m₂ ∧
          Copied m m₁ m₂ (m.structs.rankOf record.tag field.1, field.2)
            (m.structs.rankOf record.tag copied.1, copied.2) := by
        intro field hfield m₁ hspares
        obtain ⟨t, ht, hunfolds⟩ := hparts.exists_of_mem (List.mem_map_of_mem hfield)
        obtain ⟨w, m₂, hw, hadds, hcopied⟩ := ih hunfolds
          ((Shape.depth_le_depthAll ht).trans (Nat.le_of_succ_le_succ hdepth)) hspares
        exact ⟨(field.1, w), m₂, (Traced.exec_bind_of_ok _ hw).trans rfl, hadds, hcopied⟩
      obtain ⟨fields, m₂, hfields⟩ := exists_exec_mapM (fun field hmem m₁ hm₁ => by
        obtain ⟨copied, m₂, hexec, hadds, -⟩ := hfield field hmem m₁ hm₁
        exact ⟨copied, m₂, hexec, hadds.toSpares⟩) hspares
      obtain ⟨hadds, hcopies⟩ := copiedAll_mapM
        (fun field => (m.structs.rankOf record.tag field.1, field.2))
        (fun field hmem m₁ copied m₂ hm₁ hexec => by
          obtain ⟨copied', m₂', hexec', hresult⟩ := hfield field hmem m₁ hm₁
          rw [hexec] at hexec'
          cases hexec'
          exact hresult) hspares hfields
      refine ⟨_, _, ?_, copied_addRecord hrecord (names_mapM hfields) hadds
        (hadds.structs.trans hspares.structs) hcopies⟩
      rw [copyWithin, Traced.exec_bind_of_ok _ (Traced.exec_get m₁), hget, hspares.structs]
      exact (Traced.exec_bind_of_ok _ hfields).trans rfl
    | array hbuffer hparts =>
      rename_i rank p values parts
      have hmade : (Location.buffer p.buffer).Made m :=
        Machine.Unfolds.made (.array hbuffer hparts) _ List.mem_cons_self
      -- Nor has the copying of other values changed the buffer of the array.
      have hsame : m₁.arena.buffer? p.buffer = m.arena.buffer? p.buffer := hspares.same _ hmade
      have hslot : ∀ v ∈ values.toList, ∀ m₁, m.Spares m₁ → ∃ copied m₂,
          (copyWithin depth rank v).exec m₁ = .ok copied m₂ ∧ m₁.Adds m₂ ∧
          Copied m m₁ m₂ (rank, v) (rank, copied) := by
        intro v hv m₁ hspares
        obtain ⟨t, ht, hunfolds⟩ := hparts.exists_of_mem (List.mem_map_of_mem hv)
        exact ih hunfolds
          ((Shape.depth_le_depthAll ht).trans (Nat.le_of_succ_le_succ hdepth)) hspares
      obtain ⟨copies, m₂, hcopies⟩ := exists_exec_mapM (fun v hv m₁ hm₁ => by
        obtain ⟨copied, m₂, hexec, hadds, -⟩ := hslot v hv m₁ hm₁
        exact ⟨copied, m₂, hexec, hadds.toSpares⟩) hspares
      obtain ⟨hadds, hparts⟩ := copiedAll_mapM (fun v => (rank, v))
        (fun v hv m₁ copied m₂ hm₁ hexec => by
          obtain ⟨copied', m₂', hexec', hresult⟩ := hslot v hv m₁ hm₁
          rw [hexec] at hexec'
          cases hexec'
          exact hresult) hspares hcopies
      have hcontents : (lift (m₁.arena.contents p.buffer)).exec m₁ = .ok values m₁ := by
        rw [Arena.contents, hsame, hbuffer]
        rfl
      have harray : (values.mapM fun v => copyWithin depth rank v).exec m₁ =
          .ok copies.toArray m₂ := by
        rw [Array.mapM_eq_mapM_toList, ← bind_pure_comp]
        exact (Traced.exec_bind_of_ok _ hcopies).trans rfl
      refine ⟨_, _, ?_, copied_alloc hbuffer hadds hparts⟩
      rw [copyWithin, Traced.exec_bind_of_ok _ (Traced.exec_get m₁),
        Traced.exec_bind_of_ok _ hcontents, Traced.exec_bind_of_ok _ harray]
      rfl

end Run

end MiniC
