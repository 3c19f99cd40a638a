import Mathlib.Data.List.Nodup
import MiniPascal.Program.Listing
import MiniPascal.Proofs.Listing.Literals
import MiniPascal.Proofs.Text.Complete

/-! The listing of a program that compiles. It has a line for the slots and a line for each
instruction, and the program can be told from these lines. -/
namespace MiniPascal

section
variable {α : Type} {x : α} {as bs cs ds sep : List α} {xs ys : List (List α)}

/-- What stands before the first of some mark, and what stands behind it. -/
theorem append_cons_inj (ha : x ∉ as) (hb : x ∉ bs) (h : as ++ x :: cs = bs ++ x :: ds) :
    as = bs ∧ cs = ds := by
  induction as generalizing bs with
  | nil =>
    cases bs with
    | nil => exact ⟨rfl, (List.cons.inj h).2⟩
    | cons b bs =>
      obtain ⟨rfl, -⟩ := List.cons.inj h
      exact absurd List.mem_cons_self hb
  | cons a as ih =>
    cases bs with
    | nil =>
      obtain ⟨rfl, -⟩ := List.cons.inj h
      exact absurd List.mem_cons_self ha
    | cons b bs =>
      obtain ⟨rfl, hrest⟩ := List.cons.inj h
      obtain ⟨rfl, rfl⟩ := ih (fun hm => ha (List.mem_cons_of_mem _ hm))
        (fun hm => hb (List.mem_cons_of_mem _ hm)) hrest
      exact ⟨rfl, rfl⟩

/-- What a mark can stand before is told from the rest by the mark. -/
theorem append_elim_inj {o o' : Option (List α)} (ha : x ∉ as) (hb : x ∉ bs)
    (h : as ++ o.elim [] (x :: ·) = bs ++ o'.elim [] (x :: ·)) : as = bs ∧ o = o' := by
  cases o with
  | none =>
    cases o' with
    | none => exact ⟨by simpa using h, rfl⟩
    | some ds =>
      have hmem : x ∈ as := by
        rw [Option.elim_none, List.append_nil] at h
        simp [h]
      exact absurd hmem ha
  | some cs =>
    cases o' with
    | none =>
      have hmem : x ∈ bs := by
        rw [Option.elim_none, List.append_nil] at h
        simp [← h]
      exact absurd hmem hb
    | some ds =>
      obtain ⟨rfl, rfl⟩ := append_cons_inj ha hb h
      exact ⟨rfl, rfl⟩

theorem onOneLine_intercalate {sep : List Char} {xs : List (List Char)} (hs : Text.OnOneLine sep)
    (h : ∀ a ∈ xs, Text.OnOneLine a) : Text.OnOneLine (sep.intercalate xs) := by
  induction xs with
  | nil => exact .nil
  | cons a xs ih =>
    obtain ⟨ha, hxs⟩ := List.forall_mem_cons.1 h
    cases xs with
    | nil =>
      rw [List.intercalate_singleton]
      exact ha
    | cons b xs =>
      rw [List.intercalate_cons_cons]
      exact (ha.append hs).append (ih hxs)

/-- Items that a separator stands between can be told apart if it begins with something that is in
none of them. -/
theorem intercalate_inj (hx : ∀ a ∈ xs, x ∉ a ∧ a ≠ []) (hy : ∀ b ∈ ys, x ∉ b ∧ b ≠ [])
    (h : (x :: sep).intercalate xs = (x :: sep).intercalate ys) : xs = ys := by
  induction xs generalizing ys with
  | nil =>
    match ys with
    | [] => rfl
    | [b] =>
      rw [List.intercalate_nil, List.intercalate_singleton] at h
      exact absurd h.symm (hy b List.mem_cons_self).2
    | b :: b' :: ys => simp [List.intercalate_cons_cons] at h
  | cons a xs ih =>
    obtain ⟨⟨ha, hne⟩, hxs⟩ := List.forall_mem_cons.1 hx
    match xs, ys with
    | [], [] =>
      rw [List.intercalate_nil, List.intercalate_singleton] at h
      exact absurd h hne
    | [], [b] =>
      rw [List.intercalate_singleton, List.intercalate_singleton] at h
      rw [h]
    | [], b :: b' :: ys =>
      rw [List.intercalate_singleton, List.intercalate_cons_cons] at h
      exact absurd (by simp [h]) ha
    | a' :: xs, [] => simp [List.intercalate_cons_cons] at h
    | a' :: xs, [b] =>
      rw [List.intercalate_singleton, List.intercalate_cons_cons] at h
      exact absurd (by simp [← h]) (hy b List.mem_cons_self).1
    | a' :: xs, b :: b' :: ys =>
      obtain ⟨⟨hb, -⟩, hys⟩ := List.forall_mem_cons.1 hy
      simp only [List.intercalate_cons_cons, List.append_assoc, List.cons_append] at h
      obtain ⟨rfl, hrest⟩ := append_cons_inj ha hb h
      rw [ih hxs hys (List.append_cancel_left hrest)]

end

theorem Ty.name_injective {t u : Ty} (h : t.name = u.name) : t = u := by
  have hfind : ∀ t : Ty, ofName? t.name = some t := by
    intro t
    cases t <;> decide +kernel
  exact Option.some.inj (by rw [← hfind t, h, hfind u])

theorem toList_numbered (s : String) (n : Nat) :
    (s ++ toString n).toList = s.toList ++ Nat.toDigits 10 n := by
  rw [String.toList_append, Nat.toString_eq_ofList_toDigits, String.toList_ofList]

theorem numbered_injective {s : String} {n n' : Nat} (h : s ++ toString n = s ++ toString n') :
    n = n' := by
  have hlists := congrArg String.toList h
  rw [toList_numbered, toList_numbered, List.append_cancel_left_eq] at hlists
  exact toDigits_injective hlists

theorem Slot.text_injective {s s' : Slot} (h : s.text = s'.text) : s = s' := by
  cases s
  cases s'
  exact congrArg Slot.mk (UInt32.toNat_inj.1 (numbered_injective h))

theorem Label.text_injective {l l' : Label} (h : l.text = l'.text) : l = l' := by
  cases l
  cases l'
  exact congrArg Label.mk (UInt32.toNat_inj.1 (numbered_injective h))

theorem onOneLine_numbered {s : String} (hs : Text.OnOneLine s.toList) (n : Nat) :
    Text.OnOneLine (s ++ toString n).toList := by
  rw [toList_numbered]
  exact hs.append Text.onOneLine_toDigits

theorem Slot.onOneLine (s : Slot) : Text.OnOneLine s.text.toList := onOneLine_numbered (by decide) _

theorem Label.onOneLine (l : Label) : Text.OnOneLine l.text.toList :=
  onOneLine_numbered (by decide) _

theorem Ty.onOneLine (t : Ty) : Text.OnOneLine t.name.toList := by
  cases t <;> decide

namespace Instr

/-- The word that an instruction is listed with. -/
def mnemonic : Instr → String
  | push _ => "push"
  | load _ => "load"
  | store _ => "store"
  | jump _ => "jump"
  | jumpIfFalse _ => "jump_if_false"
  | print _ => "print"
  | binary op => op.text
  | i => i.text

/-- What an instruction works on, as it is listed. -/
def operand : Instr → Option String
  | push v => some v.literal
  | load s | store s => some s.text
  | jump l | jumpIfFalse l => some l.text
  | print t => some t.name
  | _ => none

/-- The instruction with something fixed to work on. -/
def bare : Instr → Instr
  | push _ => push default
  | load _ => load default
  | store _ => store default
  | jump _ => jump default
  | jumpIfFalse _ => jumpIfFalse default
  | print _ => print default
  | i => i

/-- Every operation. -/
def operations : List BinaryOp := [.add, .sub, .mul, .div, .mod, .and, .or, .eq, .lt, .gt]

/-- Every instruction that does not mark a label, with something fixed to work on. -/
def bares : List Instr :=
  [push default, load default, store default, jump default, jumpIfFalse default, print default,
    neg, not, widen, concat, halt] ++ operations.map binary

variable {i j : Instr}

theorem text_eq (h : i.mark? = none) :
    i.text.toList = i.mnemonic.toList ++ (i.operand.map String.toList).elim [] (' ' :: ·) := by
  cases i with
  | label l => cases h
  | neg | not | widen | concat | halt => rfl
  | binary op => simp [text, mnemonic, operand]
  | push | load | store | jump | jumpIfFalse | print => simp [text, mnemonic, operand]

theorem bare_mem (h : i.mark? = none) : i.bare ∈ bares := by
  cases i with
  | label l => cases h
  | binary op => cases op <;> decide
  | _ => simp [bare, bares]

theorem mnemonic_bare : i.bare.mnemonic = i.mnemonic := by
  cases i <;> rfl

/-- The mnemonics are one word each, and all different. -/
theorem blank_notMem_mnemonic (h : i.mark? = none) : ' ' ∉ i.mnemonic.toList := by
  have hwords : ∀ j ∈ bares, ' ' ∉ j.mnemonic.toList := by decide
  rw [← mnemonic_bare]
  exact hwords _ (bare_mem h)

theorem bare_eq_of_mnemonic (hi : i.mark? = none) (hj : j.mark? = none)
    (h : i.mnemonic = j.mnemonic) : i.bare = j.bare := by
  have hnodup : (bares.map mnemonic).Nodup := by decide
  refine List.inj_on_of_nodup_map hnodup (bare_mem hi) (bare_mem hj) ?_
  rwa [mnemonic_bare, mnemonic_bare]

/-- The constant that the instruction pushes, if it pushes one, can be written. -/
def Writable (i : Instr) : Prop := ∀ v, i = push v → v.Writable

/-- An instruction can be told from its mnemonic and what it works on. -/
theorem eq_of_operand (hi : i.Writable) (hj : j.Writable) (hb : i.bare = j.bare)
    (ho : i.operand = j.operand) : i = j := by
  cases i <;> cases j <;> cases hb
  case push.push v w =>
    exact congrArg push (Value.literal_injective (hi v rfl) (hj w rfl) (Option.some.inj ho))
  case load.load s s' => exact congrArg load (Slot.text_injective (Option.some.inj ho))
  case store.store s s' => exact congrArg store (Slot.text_injective (Option.some.inj ho))
  case jump.jump l l' => exact congrArg jump (Label.text_injective (Option.some.inj ho))
  case jumpIfFalse.jumpIfFalse l l' =>
    exact congrArg jumpIfFalse (Label.text_injective (Option.some.inj ho))
  case print.print t t' => exact congrArg print (Ty.name_injective (Option.some.inj ho))
  all_goals rfl

theorem text_injective (hi : i.Writable) (hj : j.Writable) (hm : i.mark? = none)
    (hm' : j.mark? = none) (h : i.text = j.text) : i = j := by
  have hlists := congrArg String.toList h
  rw [text_eq hm, text_eq hm'] at hlists
  obtain ⟨hword, ho⟩ :=
    append_elim_inj (blank_notMem_mnemonic hm) (blank_notMem_mnemonic hm') hlists
  refine eq_of_operand hi hj (bare_eq_of_mnemonic hm hm' (String.toList_inj.1 hword)) ?_
  exact Option.map_injective (fun _ _ => String.toList_inj.1) ho

/-- Marks stand at the margin, other instructions do not. -/
theorem line_cases (i : Instr) :
    (∃ l, i = label l ∧ i.line.toList = 'L' :: (Nat.toDigits 10 l.id.toNat ++ [':'])) ∨
    (i.mark? = none ∧ i.line.toList = [' ', ' ', ' ', ' '] ++ i.text.toList) := by
  cases i with
  | label l =>
    refine .inl ⟨l, rfl, ?_⟩
    rw [line, text, String.toList_append, Label.text, toList_numbered]
    rfl
  | _ => exact .inr ⟨rfl, String.toList_append⟩

/-- An instruction can be told from its line. -/
theorem line_injective (hi : i.Writable) (hj : j.Writable) (h : i.line = j.line) : i = j := by
  have hlists := congrArg String.toList h
  -- A mark has its `L` at the margin, where all other lines have a blank.
  rcases i.line_cases with ⟨l, rfl, hl⟩ | ⟨hm, hl⟩ <;>
    rcases j.line_cases with ⟨l', rfl, hl'⟩ | ⟨hm', hl'⟩ <;> rw [hl, hl'] at hlists
  · have hdigits := List.append_cancel_right (List.cons.inj hlists).2
    have hid : l.id = l'.id := UInt32.toNat_inj.1 (toDigits_injective hdigits)
    cases l
    cases l'
    cases hid
    rfl
  · cases hlists
  · cases hlists
  · exact text_injective hi hj hm hm' (String.toList_inj.1 (List.append_cancel_left hlists))

theorem onOneLine_operand (hi : i.Writable) :
    ∀ s ∈ i.operand, Text.OnOneLine s.toList := by
  intro s hs
  cases i with
  | push v =>
    cases hs
    exact Value.onOneLine_literal (hi v rfl)
  | load s | store s =>
    cases hs
    exact s.onOneLine
  | jump l | jumpIfFalse l =>
    cases hs
    exact l.onOneLine
  | print t =>
    cases hs
    exact t.onOneLine
  | neg | not | widen | binary op | concat | label l | halt => cases hs

theorem onOneLine_line (hi : i.Writable) : Text.OnOneLine i.line.toList := by
  rcases i.line_cases with ⟨l, rfl, hl⟩ | ⟨hm, hl⟩
  · rw [hl]
    have hcolon : Text.OnOneLine [':'] := by decide
    exact List.forall_mem_cons.2 ⟨by decide, Text.onOneLine_toDigits.append hcolon⟩
  · have hword : Text.OnOneLine i.mnemonic.toList := by
      have hwords : ∀ j ∈ bares, Text.OnOneLine j.mnemonic.toList := by decide
      rw [← mnemonic_bare]
      exact hwords _ (bare_mem hm)
    rw [hl, text_eq hm]
    refine .append (by decide) (hword.append ?_)
    cases ho : i.operand with
    | none => exact .nil
    | some s => exact List.forall_mem_cons.2 ⟨by decide, onOneLine_operand hi s ho⟩

end Instr

namespace Program

/-- A slot in the header. -/
def slotItem (t : Ty) (n : Nat) : String := (Slot.mk (UInt32.ofNat n)).text ++ ": " ++ t.name

/-- The slots in the header. -/
def slotItems (slots : Array Ty) : List String :=
  slots.toList.zipIdx.map fun (t, n) => slotItem t n

variable {p q : Program} {slots slots' : Array Ty}

theorem header_eq (p : Program) : p.header = ".slots " ++ ", ".intercalate (slotItems p.slots) :=
  rfl

theorem slotItems_injective (h : slotItems slots = slotItems slots') : slots = slots' := by
  refine Array.ext_getElem? fun k => ?_
  have hk := congrArg (·[k]?) h
  simp only [slotItems, List.getElem?_map, List.getElem?_zipIdx, Option.map_map, Nat.zero_add,
    Array.getElem?_toList] at hk
  refine Option.map_injective (fun t u htu => ?_) hk
  exact Ty.name_injective (String.append_right_inj _ |>.1 htu)

theorem slotItem_toList (t : Ty) (n : Nat) : (slotItem t n).toList =
    (Slot.mk (UInt32.ofNat n)).text.toList ++ ([':', ' '] ++ t.name.toList) := by
  rw [slotItem, String.toList_append, String.toList_append, List.append_assoc]
  rfl

theorem comma_notMem_slotItem (t : Ty) (n : Nat) : ',' ∉ (slotItem t n).toList := by
  have hname : ',' ∉ [':', ' '] ++ t.name.toList := by cases t <;> decide
  have hslot : ',' ∉ (Slot.mk (UInt32.ofNat n)).text.toList := by
    rw [Slot.text, toList_numbered, List.mem_append]
    rintro (hc | hc)
    · exact absurd hc (by decide)
    · cases Decimal.isDigit_toDigits hc
  rw [slotItem_toList, List.mem_append]
  exact not_or.2 ⟨hslot, hname⟩

theorem mem_slotItems {cs : List Char} (h : cs ∈ (slotItems slots).map String.toList) :
    ∃ t n, cs = (slotItem t n).toList := by
  obtain ⟨item, hitem, rfl⟩ := List.mem_map.1 h
  obtain ⟨⟨t, n⟩, -, rfl⟩ := List.mem_map.1 hitem
  exact ⟨t, n, rfl⟩

theorem onOneLine_slotItem (t : Ty) (n : Nat) : Text.OnOneLine (slotItem t n).toList := by
  rw [slotItem_toList]
  exact (Slot.onOneLine _).append (.append (by decide) t.onOneLine)

theorem header_toList (p : Program) : p.header.toList =
    ".slots ".toList ++ [',', ' '].intercalate ((slotItems p.slots).map String.toList) := by
  rw [header_eq, String.toList_append, String.toList_intercalate]
  rfl

/-- The slots can be told from the header. -/
theorem header_injective (h : p.header = q.header) : p.slots = q.slots := by
  have hlists := congrArg String.toList h
  rw [header_toList, header_toList, List.append_cancel_left_eq] at hlists
  have hitem : ∀ slots : Array Ty, ∀ cs ∈ (slotItems slots).map String.toList,
      ',' ∉ cs ∧ cs ≠ [] := by
    intro slots cs hcs
    obtain ⟨t, n, rfl⟩ := mem_slotItems hcs
    refine ⟨comma_notMem_slotItem t n, ?_⟩
    rw [slotItem_toList]
    simp
  have hitems := intercalate_inj (hitem p.slots) (hitem q.slots) hlists
  exact slotItems_injective (List.map_injective_iff.2 (fun _ _ => String.toList_inj.1) hitems)

theorem onOneLine_header (p : Program) : Text.OnOneLine p.header.toList := by
  rw [header_toList]
  refine .append (by decide) (onOneLine_intercalate (by decide) fun cs hcs => ?_)
  obtain ⟨t, n, rfl⟩ := mem_slotItems hcs
  exact onOneLine_slotItem t n

/-- What the listing of a program looks like. -/
structure Listed (p : Program) : Prop where
  /-- It is made up of complete lines, the header and one for each instruction. -/
  complete : CompleteLines p.listing (p.header :: p.code.toList.map (·.line))
  /-- There are no other lines. -/
  length : (SourceText.ofString p.listing).lines.length = p.code.size + 1
  /-- The first line is the header. -/
  first : (SourceText.ofString p.listing).lineText? 0 = some p.header.toList
  /-- Each later one shows the instruction of its index. -/
  later : ∀ k, (SourceText.ofString p.listing).lineText? (k + 1) = p.code[k]?.map (·.line.toList)

theorem writable_of_getElem? {i : Instr} {k : Nat} (h : Pushes Value.Writable p.code.toList)
    (hi : p.code[k]? = some i) : i.Writable := by
  rintro v rfl
  exact h v (Array.mem_toList_iff.2 (Array.mem_of_getElem? hi))

theorem listed (h : Pushes Value.Writable p.code.toList) : p.Listed := by
  have hcomplete : CompleteLines p.listing (p.header :: p.code.toList.map (·.line)) := by
    refine ⟨rfl, List.forall_mem_cons.2 ⟨p.onOneLine_header, fun l hl => ?_⟩⟩
    obtain ⟨i, hi, rfl⟩ := List.mem_map.1 hl
    obtain ⟨k, hk⟩ := Array.mem_iff_getElem?.1 (Array.mem_toList_iff.1 hi)
    exact Instr.onOneLine_line (writable_of_getElem? h hk)
  refine ⟨hcomplete, ?_, ?_, fun k => ?_⟩
  · rw [hcomplete.length_lines]
    simp
  · rw [hcomplete.lineText?]
    rfl
  · rw [hcomplete.lineText?]
    simp [Function.comp_def]

/-- Programs of constants that can be written are the same if their listings are. -/
theorem listing_injective (hp : Pushes Value.Writable p.code.toList)
    (hq : Pushes Value.Writable q.code.toList) (h : p.listing = q.listing) : p = q := by
  have hlines : p.header :: p.code.toList.map (·.line) = q.header :: q.code.toList.map (·.line) :=
    (listed hp).complete.unique (h ▸ (listed hq).complete)
  obtain ⟨hheader, hcode⟩ := List.cons.inj hlines
  have hcodes : p.code = q.code := by
    refine Array.ext_getElem? fun k => ?_
    have hk := congrArg (·[k]?) hcode
    simp only [List.getElem?_map, Array.getElem?_toList] at hk
    cases hi : p.code[k]? with
    | none =>
      rw [hi, Option.map_none, eq_comm, Option.map_eq_none_iff] at hk
      exact hk.symm
    | some i =>
      cases hj : q.code[k]? with
      | none => simp [hi, hj] at hk
      | some j =>
        rw [hi, hj] at hk
        rw [Instr.line_injective (writable_of_getElem? hp hi) (writable_of_getElem? hq hj)
          (Option.some.inj hk)]
  have hslots := header_injective hheader
  cases p
  cases q
  cases hslots
  cases hcodes
  rfl

end Program

section
variable {source : String} {p : Program}

/-- The listing of a program that compiles has a line for the header and one for each instruction,
and no other program that compiles has this listing. -/
theorem listing_identifies (h : compile source = .ok p) :
    p.Listed ∧ ∀ source' p', compile source' = .ok p' → p.listing = p'.listing → p = p' :=
  ⟨Program.listed (writable_of_compile h), fun _ _ h' =>
    Program.listing_injective (writable_of_compile h) (writable_of_compile h')⟩

/-- Two texts with the same real and the same string. -/
theorem listing_identifies_spellings :
    ∃ p p', compile "program p; begin writeln(0.15e2, '15.0') end." = .ok p ∧
      compile "PROGRAM Q; BEGIN WRITELN(15.0, '15.0') END." = .ok p' ∧ p.Listed ∧
      p.listing = p'.listing ∧ p = p' := by
  have hsome : (compile "program p; begin writeln(0.15e2, '15.0') end.").toOption.isSome := by
    decide +kernel
  have hsame : (compile "program p; begin writeln(0.15e2, '15.0') end.").toOption.map (·.listing) =
      (compile "PROGRAM Q; BEGIN WRITELN(15.0, '15.0') END.").toOption.map (·.listing) := by
    decide +kernel
  cases h : compile "program p; begin writeln(0.15e2, '15.0') end." with
  | error e => simp [h, Except.toOption] at hsome
  | ok p =>
    cases h' : compile "PROGRAM Q; BEGIN WRITELN(15.0, '15.0') END." with
    | error e => simp [h, h', Except.toOption] at hsame
    | ok p' =>
      have hlisting : p.listing = p'.listing := by simpa [h, h', Except.toOption] using hsame
      obtain ⟨hlisted, hothers⟩ := listing_identifies h
      exact ⟨p, p', rfl, rfl, hlisted, hlisting, hothers _ p' h' hlisting⟩

end
end MiniPascal
