import MiniPascal.Machine.Run
import MiniPascal.Proofs.Tree.Labels

/-! Where jumps lead. In the code of a tree every label that is jumped to is marked, once, and leads
to its mark. -/
namespace MiniPascal

theorem lookup_of_mem {α β : Type} [BEq α] [LawfulBEq α] {ps : List (α × β)} {k : α} {v : β}
    (hd : (ps.map (·.1)).Nodup) (h : (k, v) ∈ ps) : ps.lookup k = some v := by
  induction ps with
  | nil => cases h
  | cons q ps ih =>
    obtain ⟨k', v'⟩ := q
    rw [List.map_cons, List.nodup_cons] at hd
    rw [List.lookup_cons]
    rcases List.mem_cons.1 h with heq | hmem
    · cases heq
      simp
    · have hne : k ≠ k' := by
        rintro rfl
        exact hd.1 (List.mem_map.2 ⟨_, hmem, rfl⟩)
      rw [beq_eq_false_iff_ne.2 hne]
      exact ih hd.2 hmem

namespace Program

variable {p : Program} {l : Label} {n : Nat}

theorem targets_keys : (p.targets.map (·.1)) = (marks p.code).reverse := by
  have hpairs : p.code.toList.filterMap (·.mark?) =
      p.code.toList.zipIdx.filterMap fun q => q.1.mark? := by
    rw [← List.zipIdx_map_fst 0 p.code.toList, List.filterMap_map, List.zipIdx_map_fst]
    rfl
  rw [targets, List.map_reverse, indexedMarks, List.map_filterMap, marks, hpairs]
  refine congrArg (fun f => (List.filterMap f _).reverse) (funext fun q => ?_)
  cases h : q.1.mark? <;> simp [h]

/-- A label that is marked once leads to its mark. -/
theorem lookup_targets (hn : (marks p.code).Nodup) (hl : p.code[n]? = some (.label l)) :
    p.targets.lookup l = some n := by
  refine lookup_of_mem ?_ ?_
  · rw [targets_keys]
    exact (List.reverse_perm _).nodup_iff.2 hn
  · rw [targets, List.mem_reverse, indexedMarks, List.mem_filterMap]
    refine ⟨(.label l, n), ?_, rfl⟩
    rw [List.mem_zipIdx_iff_getElem?]
    simpa using hl

/-- A label only ever leads to one of its marks. -/
theorem getElem?_of_lookup_targets (h : p.targets.lookup l = some n) :
    p.code[n]? = some (.label l) := by
  obtain ⟨before, behind, hsplit, -⟩ := List.lookup_eq_some_iff.1 h
  have hmem : (l, n) ∈ p.indexedMarks := by
    rw [← List.mem_reverse, ← targets, hsplit]
    simp
  obtain ⟨⟨i, k⟩, hik, heq⟩ := List.mem_filterMap.1 hmem
  have hi : p.code[k]? = some i := by
    rw [List.mem_zipIdx_iff_getElem?] at hik
    simpa using hik
  cases i with
  | label l' =>
    cases heq
    exact hi
  | _ => cases heq

theorem missingLabel?_eq_none (h : ∀ i ∈ p.code.toList, ∀ l, i.target? = some l →
    (p.targets.lookup l).isSome) : p.missingLabel? = none := by
  refine List.findSome?_eq_none_iff.2 fun i hi => ?_
  cases ht : i.target? with
  | none => rfl
  | some l =>
    have hmark := h i hi l ht
    simpa using hmark

theorem isSome_lookup_targets (h : l ∈ marks p.code) : (p.targets.lookup l).isSome := by
  have hkey : l ∈ p.targets.map (·.1) := by
    rw [targets_keys]
    exact List.mem_reverse.2 h
  obtain ⟨q, hq, rfl⟩ := List.mem_map.1 hkey
  exact List.lookup_isSome_iff.2 ⟨q, hq, BEq.rfl⟩

/-- Where each label is marked and jumped to once, every jump leads somewhere. -/
theorem isSome_lookup_of_marked {is : List Instr} {k : Nat} {i : Instr} (h : Marked n is k)
    (hp : p.code.toList = is ++ [.halt]) (hi : i ∈ p.code.toList) (ht : i.target? = some l) :
    (p.targets.lookup l).isSome := by
  have hjumps : jumpsIn p.code.toList = jumpsIn is := by simp [hp, Instr.target?]
  have hmarks : marks p.code = marksIn is := by
    have hmarksIn : marks p.code = marksIn p.code.toList := rfl
    simp [hmarksIn, hp, Instr.mark?]
  have hmem : l ∈ jumpsIn p.code.toList := List.mem_filterMap.2 ⟨i, hi, ht⟩
  refine isSome_lookup_targets ?_
  rw [hjumps] at hmem
  rw [hmarks]
  exact h.marks.mem_iff.2 (h.jumps.mem_iff.1 hmem)

end Program

namespace Tree

variable {a : Tree} {l : Label} {n : Nat}

theorem marks_program (a : Tree) : Program.marks a.program.code = marksIn a.code :=
  marksIn_append.trans (List.append_nil _)

theorem labelOf_injective {j k : Nat} (hj : j < UInt32.size) (hk : k < UInt32.size)
    (h : labelOf j = labelOf k) : j = k := by
  have hid : (UInt32.ofNat j).toNat = (UInt32.ofNat k).toNat := by
    rw [labelOf, labelOf, Label.mk.injEq] at h
    rw [h]
  rwa [UInt32.toNat_ofNat_of_lt' hj, UInt32.toNat_ofNat_of_lt' hk] at hid

/-- As long as labels can be told apart, each is marked once. -/
theorem nodup_marks (h : a.body.labels < UInt32.size) : (Program.marks a.program.code).Nodup := by
  rw [marks_program, a.marksIn_code.nodup_iff, labelsFrom, List.Nodup, List.pairwise_map]
  have hn : (List.range' 0 a.body.labels).Nodup := List.nodup_range'
  refine List.Pairwise.imp_of_mem (fun hj hk hne heq => hne (labelOf_injective ?_ ?_ heq)) hn
  · rw [List.mem_range'_1] at hj
    omega
  · rw [List.mem_range'_1] at hk
    omega

/-- A label in the code of a tree leads to its mark. -/
theorem lookup_targets (h : a.body.labels < UInt32.size)
    (hl : a.program.code[n]? = some (.label l)) :
    a.program.targets.lookup l = some n := Program.lookup_targets (nodup_marks h) hl

theorem isSome_lookup_of_jump {i : Instr} (hi : i ∈ a.program.code.toList)
    (ht : i.target? = some l) : (a.program.targets.lookup l).isSome :=
  Program.isSome_lookup_of_marked a.marked_code rfl hi ht

/-- Every jump in the code of a tree leads somewhere. -/
theorem missingLabel?_program (a : Tree) : a.program.missingLabel? = none :=
  Program.missingLabel?_eq_none fun _ hi _ ht => isSome_lookup_of_jump hi ht

end Tree
end MiniPascal
