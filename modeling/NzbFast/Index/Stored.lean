import NzbFast.Index.Ingest

/-!
# What a files row stores

A row that ingest wrote holds the parts of one file: numbers between 1 and the total,
each once, spelled by the segment codec. Merging a cluster's parts into a row keeps the
row's parts under ids that normalize alike when the cluster contradicts none of them.
-/

namespace NzbFast.Index

open NzbFast.Rust NzbFast.Sql BTreeMap List

/-! ## Parts and segments -/

theorem length_le_of_bounds (parts : Parts) {total : Nat} (h : ∀ x ∈ parts, 1 ≤ x.1 ∧ x.1 ≤ total) :
    parts.entries.length ≤ total := by
  have hsub : parts.entries.map (·.1) ⊆ (range total).map (· + 1) := by
    intro n hn
    obtain ⟨x, hx, rfl⟩ := mem_map.mp hn
    obtain ⟨h1, h2⟩ := h x hx
    exact mem_map.mpr ⟨x.1 - 1, mem_range.mpr (by omega), by omega⟩
  have hnodup : (parts.entries.map (·.1)).Nodup :=
    pairwise_map.mpr (parts.sorted.imp ne_of_lt)
  simpa using (hnodup.subperm hsub).length_le

/-- All of `1..total` are there once there are `total` parts. -/
theorem mem_of_total_le (parts : Parts) {total : Nat} (h : ∀ x ∈ parts, 1 ≤ x.1 ∧ x.1 ≤ total)
    (hle : total ≤ parts.entries.length) {n : Nat} (h1 : 1 ≤ n) (hn : n ≤ total) :
    ∃ v, (n, v) ∈ parts := by
  by_contra hno
  -- Without part `n` the numbers fit into one slot fewer.
  have hsub : parts.entries.map (·.1) ⊆ ((range total).map (· + 1)).erase n := by
    intro k hk
    obtain ⟨x, hx, rfl⟩ := mem_map.mp hk
    obtain ⟨hx1, hx2⟩ := h x hx
    have hne : x.1 ≠ n := fun e => hno ⟨x.2, e ▸ hx⟩
    exact (mem_erase_of_ne hne).mpr
      (mem_map.mpr ⟨x.1 - 1, mem_range.mpr (by omega), by omega⟩)
  have hnodup : (parts.entries.map (·.1)).Nodup :=
    pairwise_map.mpr (parts.sorted.imp ne_of_lt)
  have hlen := (hnodup.subperm hsub).length_le
  have hmem : n ∈ (range total).map (· + 1) :=
    mem_map.mpr ⟨n - 1, mem_range.mpr (by omega), by omega⟩
  rw [length_erase_of_mem hmem] at hlen
  simp only [length_map, length_range] at hlen
  omega

theorem foldl_insert_entries (l : List (Nat × String × UInt64))
    (hs : l.Pairwise fun x y => x.1 < y.1) (m : Parts) (hm : ∀ x ∈ m, ∀ y ∈ l, x.1 < y.1) :
    (l.foldl (fun (m : Parts) x => m.insert x.1 x.2) m).entries = m.entries ++ l := by
  induction l generalizing m with
  | nil => exact (append_nil _).symm
  | cons y l ih =>
    have hlast : (m.insert y.1 y.2).entries = m.entries ++ [y] :=
      entries_insert_last y.2 fun x hx => hm x hx y mem_cons_self
    rw [foldl_cons, ih (pairwise_cons.mp hs).2, hlast, append_assoc]
    · rfl
    · intro x hx z hz
      rcases mem_append.mp (hlast ▸ hx : x ∈ m.entries ++ [y]) with hx | hx
      · exact hm x hx z (mem_cons_of_mem _ hz)
      · rw [mem_singleton.mp hx]
        exact (pairwise_cons.mp hs).1 z hz

/-- A map read back from its own segments. -/
theorem partsOfSegs_segsOfParts {parts : Parts} (h : ∀ x ∈ parts, x.1 < 2 ^ 32) :
    partsOfSegs (segsOfParts parts) = parts := by
  have hfold : partsOfSegs (segsOfParts parts) =
      parts.entries.foldl (fun (m : Parts) x => m.insert x.1 x.2) .empty := by
    rw [partsOfSegs, segsOfParts, foldl_map]
    refine foldl_ext _ _ _ fun m x hx => ?_
    rw [UInt32.toNat_ofNat_of_lt' (h x hx)]
  have he := foldl_insert_entries parts.entries parts.sorted .empty
    fun x hx => absurd hx (not_mem_empty x)
  rw [← hfold] at he
  cases parts
  cases hp : partsOfSegs _ with
  | mk entries sorted =>
    rw [hp] at he
    cases he
    rfl

/-! ## Rows -/

variable (fromJson : List UInt8 → Option (List Seg))

/-- The row of a file with these parts. -/
structure FileRow.Stores (f : FileRow) (parts : Parts) : Prop where
  row : f = fileRow f.totalParts parts
  within : ∀ x ∈ parts, 1 ≤ x.1 ∧ x.1 ≤ f.totalParts.toNat
  nonempty : parts.entries ≠ []
  text : textLen (segsOfParts parts) ≤ usizeMax

namespace FileRow.Stores

variable {f : FileRow} {parts : Parts}

theorem lt_u32 (h : f.Stores parts) {x : Nat × String × UInt64} (hx : x ∈ parts) : x.1 < 2 ^ 32 :=
  lt_of_le_of_lt (h.within x hx).2 f.totalParts.toNat_lt

theorem length_lt (h : f.Stores parts) : parts.entries.length < 2 ^ 32 :=
  lt_of_le_of_lt (length_le_of_bounds parts h.within) f.totalParts.toNat_lt

/-- The segments as the codec takes them. -/
def segVec (h : f.Stores parts) : SegVec where
  segs := segsOfParts parts
  count := by
    have hlt := h.length_lt
    rw [segsOfParts, List.length_map]
    omega
  text := h.text

theorem segments (h : f.Stores parts) : f.segments = encode (segsOfParts parts) :=
  congrArg FileRow.segments h.row

theorem parse (h : f.Stores parts) : parseBytes fromJson f.segments = segsOfParts parts := by
  have hle : (segsOfParts parts).length ≤ usizeMax :=
    le_of_lt (lt_trans h.segVec.count (by decide))
  have hdec : decodePrefix (encode (segsOfParts parts)) usizeMax =
      some ((segsOfParts parts).take usizeMax) := decodePrefix_encode h.segVec usizeMax
  rw [parseBytes, h.segments, if_pos (isEncoded_encode _), decode, hdec]
  exact take_of_length_le hle

theorem held (h : f.Stores parts) : heldParts (some (f.read fromJson)) = parts := by
  have hread : (f.read fromJson).segs = segsOfParts parts := h.parse fromJson
  rw [heldParts, Option.map_some, Option.getD_some, hread]
  exact partsOfSegs_segsOfParts fun x hx => h.lt_u32 hx

theorem nsegs (h : f.Stores parts) : f.nsegs = parts.entries.length := congrArg FileRow.nsegs h.row

theorem nsegs_pos (h : f.Stores parts) : 0 < f.nsegs := by
  rw [h.nsegs]
  have := length_pos_iff.mpr h.nonempty
  omega

theorem effective (h : f.Stores parts) : f.effective = parts.entries.length := by
  rw [FileRow.effective, if_pos h.nsegs_pos, h.nsegs]

end FileRow.Stores

/-- The row holds part `n` under this id. -/
def FileRow.Holds (f : FileRow) (n : UInt32) (id : String) : Prop :=
  ∃ seg ∈ parseBytes fromJson f.segments, seg.number = n ∧ seg.id = id

theorem FileRow.Stores.holds_iff {f : FileRow} {parts : Parts} (h : f.Stores parts) (n : UInt32)
    (id : String) : f.Holds fromJson n id ↔ ∃ b, parts.get n.toNat = some (id, b) := by
  rw [FileRow.Holds, h.parse, segsOfParts]
  constructor
  · rintro ⟨seg, hseg, rfl, rfl⟩
    obtain ⟨x, hx, rfl⟩ := mem_map.mp hseg
    refine ⟨x.2.2, get_eq_some.mpr ?_⟩
    rw [UInt32.toNat_ofNat_of_lt' (h.lt_u32 hx)]
    exact hx
  · rintro ⟨b, hb⟩
    refine ⟨⟨UInt32.ofNat n.toNat, id, b⟩, ?_, UInt32.ofNat_toNat, rfl⟩
    exact mem_map.mpr ⟨(n.toNat, id, b), get_eq_some.mp hb, rfl⟩

/-! ## The merge -/

theorem get_mergePart (merged : Parts) (x : Nat × String × UInt64) (n : Nat) :
    (mergePart merged x).get n =
      if n = x.1 then some (x.2.1, ((merged.get n).map fun prev => max x.2.2 prev.2).getD x.2.2)
      else merged.get n := by
  rw [mergePart, get_insert]
  split
  · rename_i h
    rw [h]
  · rfl

theorem get_foldl_mergePart (l : List (Nat × String × UInt64))
    (hs : l.Pairwise fun x y => x.1 < y.1) (merged : Parts) (n : Nat) :
    (∀ v, (n, v) ∈ l → (l.foldl mergePart merged).get n =
      some (v.1, ((merged.get n).map fun prev => max v.2 prev.2).getD v.2)) ∧
    ((∀ x ∈ l, x.1 ≠ n) → (l.foldl mergePart merged).get n = merged.get n) := by
  induction l generalizing merged with
  | nil => exact ⟨fun v hv => absurd hv not_mem_nil, fun _ => rfl⟩
  | cons x l ih =>
    obtain ⟨hx, hl⟩ := pairwise_cons.mp hs
    obtain ⟨ih1, ih2⟩ := ih hl (mergePart merged x)
    rw [foldl_cons]
    refine ⟨fun v hv => ?_, fun hno => ?_⟩
    · rcases mem_cons.mp hv with rfl | hv
      · -- The other parts have larger numbers and leave this one alone.
        rw [ih2 fun y hy => ne_of_gt (hx y hy), get_mergePart, if_pos rfl]
      · rw [ih1 v hv, get_mergePart, if_neg (ne_of_gt (hx _ hv))]
    · rw [ih2 fun y hy => hno y (mem_cons_of_mem _ hy), get_mergePart,
        if_neg fun e => hno x mem_cons_self e.symm]

theorem get_mergeParts_of_mem {merged parts : Parts} {n : Nat} {v : String × UInt64}
    (h : (n, v) ∈ parts) : (mergeParts merged parts).get n =
      some (v.1, ((merged.get n).map fun prev => max v.2 prev.2).getD v.2) :=
  (get_foldl_mergePart parts.entries parts.sorted merged n).1 v h

theorem get_mergeParts_of_none {merged parts : Parts} {n : Nat} (h : parts.get n = none) :
    (mergeParts merged parts).get n = merged.get n :=
  (get_foldl_mergePart parts.entries parts.sorted merged n).2 (get_eq_none.mp h)

theorem mem_mergeParts {merged parts : Parts} {x : Nat × String × UInt64}
    (h : x ∈ mergeParts merged parts) : (∃ v, (x.1, v) ∈ parts) ∨ x ∈ merged := by
  have hx : (mergeParts merged parts).get x.1 = some x.2 := get_eq_some.mpr h
  cases hg : parts.get x.1 with
  | some v => exact .inl ⟨v, get_eq_some.mp hg⟩
  | none =>
    rw [get_mergeParts_of_none hg] at hx
    exact .inr (get_eq_some.mp hx)

theorem mergeParts_ne_nil {merged parts : Parts} (h : parts.entries ≠ []) :
    (mergeParts merged parts).entries ≠ [] := by
  obtain ⟨x, hx⟩ := exists_mem_of_ne_nil _ h
  have hget := @get_mergeParts_of_mem merged parts x.1 x.2 hx
  exact ne_nil_of_mem (get_eq_some.mp hget)

end NzbFast.Index
