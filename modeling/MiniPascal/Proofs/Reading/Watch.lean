import MiniPascal.Proofs.Reading.Journal
import MiniPascal.Proofs.Reading.Rejections

/-! A watch on a journal: how many tokens have been passed, which rules are being read and since
when, and which rounds of loops have begun. A reading keeps moving if each rule is entered, and each
round begun, later than those before it. -/
namespace MiniPascal.Grammar

/-- How far in a rule is entered if no token is passed. -/
def Rule.level : Rule → Nat
  | program => 0
  | declarations => 1
  | variableDeclaration => 2
  | typeName => 3
  | statement => 4
  | compound => 5
  | assignment => 6
  | call => 7
  | choice => 8
  | loop => 9
  | condition => 10
  | expression => 11
  | sum => 12
  | term => 13
  | factor => 14

/-- The order in which loops begin their rounds if no token is passed. -/
def Loop.level : Loop → Nat
  | factors => 0
  | terms => 1
  | sequence => 2
  | arguments => 3
  | names => 4
  | declarations => 5

/-- A token that has been passed. -/
def Note.token? : Note → Option Token
  | pass t => some t
  | _ => none

/-- The tokens that have been passed. -/
def passedIn (notes : List Note) : List Token := notes.filterMap Note.token?

/-- What a journal says so far. -/
structure Watch where
  /-- How many tokens have been passed. -/
  passed : Nat
  /-- The rules that are being read, the innermost first, and how many tokens had been passed when
  they were entered. -/
  frames : List (Rule × Nat)
  /-- The rounds of loops that have begun, the latest first, and how many tokens had been passed. -/
  rounds : List (Loop × Nat)

namespace Watch

/-- Nothing has been seen. -/
def start : Watch := ⟨0, [], []⟩

def see (w : Watch) : Note → Watch
  | .pass _ => { w with passed := w.passed + 1 }
  | .enter r => { w with frames := (r, w.passed) :: w.frames }
  | .leave => { w with frames := w.frames.tail }
  | .round l => { w with rounds := (l, w.passed) :: w.rounds }
  | .spent => w

def after (w : Watch) (notes : List Note) : Watch := notes.foldl see w

end Watch

/-- One point of a reading is before another: fewer tokens have been passed, or as many on a lower
level. -/
def Before (a b : Nat × Nat) : Prop := a.1 < b.1 ∨ a.1 = b.1 ∧ a.2 < b.2

/-- The point at which a rule was entered. -/
def entry (f : Rule × Nat) : Nat × Nat := (f.2, f.1.level)

/-- The point at which a round began. -/
def beginning (r : Loop × Nat) : Nat × Nat := (r.2, r.1.level)

/-- All rules were entered, and all rounds began, one after another. -/
structure Watch.Sound (w : Watch) : Prop where
  frames : w.frames.Pairwise fun inner outer => Before (entry outer) (entry inner)
  rounds : w.rounds.Pairwise fun late early => Before (beginning early) (beginning late)
  entered : ∀ f ∈ w.frames, f.2 ≤ w.passed

/-- The end of the text is never passed, and no bound is used up. -/
def Note.Allowed : Note → Prop
  | pass t => t.kind ≠ .endOfText
  | spent => False
  | _ => True

/-- Notes under which a watch stays sound. -/
inductive InOrder : Watch → List Note → Prop
  | nil {w : Watch} (h : w.Sound) : InOrder w []
  | cons {w : Watch} {n : Note} {notes : List Note} (h : w.Sound) (hn : n.Allowed)
    (hs : InOrder (w.see n) notes) : InOrder w (n :: notes)

/-- What is known where a production begins or ends. -/
structure Mark where
  /-- At most so many tokens are left, the end of the text included. -/
  tokens : Nat
  /-- Rules of this level may be entered. -/
  level : Nat
  /-- Loops of this level may begin a round. -/
  loop : Nat
  /-- Whether the current token is known not to be the end of the text. -/
  more : Bool

structure Mark.Fits (m : Mark) (s : State) (w : Watch) : Prop where
  ended : s.Ended
  tokens : s.tokens.length ≤ m.tokens
  sound : w.Sound
  level : ∀ f ∈ w.frames, Before (entry f) (w.passed, m.level)
  loop : ∀ r ∈ w.rounds, Before (beginning r) (w.passed, m.loop)
  more : m.more = true → s.current.kind ≠ .endOfText

/-- The second mark is known wherever the first is. -/
structure Mark.Within (m m' : Mark) : Prop where
  tokens : m.tokens ≤ m'.tokens
  level : m.level ≤ m'.level
  loop : m.loop ≤ m'.loop
  more : m'.more = true → m.more = true

section
variable {w : Watch} {n : Note} {notes more front back : List Note} {m m' m'' : Mark}
  {s s' : State} {a b c : Nat × Nat}

theorem Before.trans (h : Before a b) (h' : Before b c) : Before a c := by
  unfold Before at *
  omega

theorem passedIn_append : passedIn (notes ++ more) = passedIn notes ++ passedIn more :=
  List.filterMap_append

theorem after_append : w.after (notes ++ more) = (w.after notes).after more :=
  List.foldl_append

theorem passed_after : (w.after notes).passed = w.passed + (passedIn notes).length := by
  induction notes generalizing w with
  | nil => rfl
  | cons n notes ih =>
    have hstep := ih (w := w.see n)
    cases n with
    | pass t => exact hstep.trans (by simp [Watch.see, passedIn, Note.token?]; omega)
    | enter | leave | round | spent => exact hstep

theorem InOrder.sound (h : InOrder w notes) : w.Sound := by
  cases h with
  | nil h => exact h
  | cons h => exact h

theorem InOrder.sound_after (h : InOrder w (front ++ back)) : (w.after front).Sound := by
  induction front generalizing w with
  | nil => exact h.sound
  | cons n front ih =>
    cases h with
    | cons _ _ hs => exact ih hs

theorem InOrder.sound_end (h : InOrder w notes) : (w.after notes).Sound := by
  rw [← List.append_nil notes] at h
  exact h.sound_after

theorem InOrder.allowed (h : InOrder w notes) (hn : n ∈ notes) : n.Allowed := by
  induction h with
  | nil => cases hn
  | cons _ ha _ ih =>
    rcases List.mem_cons.1 hn with rfl | hn
    · exact ha
    · exact ih hn

theorem InOrder.append (h : InOrder w notes) (h' : InOrder (w.after notes) more) :
    InOrder w (notes ++ more) := by
  induction h with
  | nil => exact h'
  | cons hw hn _ ih => exact .cons hw hn (ih h')

theorem InOrder.single (h : w.Sound) (hn : n.Allowed) (h' : (w.see n).Sound) : InOrder w [n] :=
  .cons h hn (.nil h')

theorem Mark.Within.refl (m : Mark) : m.Within m :=
  ⟨Nat.le_refl _, Nat.le_refl _, Nat.le_refl _, id⟩

/-- The current token need not be known any longer. -/
theorem Mark.Within.forget {k level loop : Nat} {more : Bool} :
    Mark.Within ⟨k, level, loop, more⟩ ⟨k, level, loop, false⟩ :=
  ⟨Nat.le_refl _, Nat.le_refl _, Nat.le_refl _, by simp⟩

/-- Behind a token that has been passed, whatever is known of rules is known. -/
theorem Mark.Within.passed {k k' level loop loop' : Nat} (hk : k' ≤ k) (hloop : loop' ≤ loop) :
    Mark.Within ⟨k', 0, loop', false⟩ ⟨k, level, loop, false⟩ :=
  ⟨hk, Nat.zero_le _, hloop, id⟩

theorem Mark.Fits.within (h : m.Fits s w) (hm : m.Within m') : m'.Fits s w := by
  refine ⟨h.ended, Nat.le_trans h.tokens hm.tokens, h.sound, ?_, ?_, fun hmore => ?_⟩
  · intro f hf
    have hbefore := h.level f hf
    have hle := hm.level
    unfold Before at *
    dsimp only at *
    omega
  · intro r hr
    have hbefore := h.loop r hr
    have hle := hm.loop
    unfold Before at *
    dsimp only at *
    omega
  · exact h.more (hm.more hmore)

/-- A rule may be entered where the mark allows its level. -/
theorem Mark.Fits.enter {r : Rule} (h : m.Fits s w) (hr : m.level ≤ r.level) :
    Mark.Fits { m with level := r.level + 1 } s (w.see (.enter r)) := by
  have hinner : ∀ f ∈ w.frames, Before (entry f) (w.passed, r.level) := by
    intro f hf
    have hbefore := h.level f hf
    unfold Before at *
    dsimp only at *
    omega
  refine ⟨h.ended, h.tokens, ⟨.cons hinner h.sound.frames, h.sound.rounds, ?_⟩, ?_, h.loop, h.more⟩
  · intro f hf
    rcases List.mem_cons.1 hf with rfl | hf
    · exact Nat.le_refl _
    · exact h.sound.entered f hf
  · intro f hf
    rcases List.mem_cons.1 hf with rfl | hf
    · exact .inr ⟨rfl, Nat.lt_succ_self _⟩
    · refine (hinner f hf).trans (.inr ⟨rfl, Nat.lt_succ_self _⟩)

/-- Behind a rule, the rules around it are being read as before. -/
theorem Mark.Fits.leave {r : Rule} {level : Nat} (h : m.Fits s (w.see (.enter r) |>.after notes))
    (hframes : (w.see (.enter r) |>.after notes).frames = (w.see (.enter r)).frames)
    (hlevel : ∀ f ∈ w.frames, Before (entry f) (w.passed, level)) :
    Mark.Fits { m with level } s (w.after (.enter r :: (notes ++ [.leave]))) ∧
      (w.after (.enter r :: (notes ++ [.leave]))).frames = w.frames := by
  have hafter : w.after (.enter r :: (notes ++ [.leave])) =
      (w.see (.enter r) |>.after notes).see .leave := after_append
  have hpassed : w.passed ≤ (w.see (.enter r) |>.after notes).passed := by
    rw [passed_after]
    exact Nat.le_add_right _ _
  have htail : ((w.see (.enter r) |>.after notes).see .leave).frames = w.frames :=
    congrArg List.tail hframes
  rw [hafter]
  refine ⟨⟨h.ended, h.tokens, ⟨h.sound.frames.tail, h.sound.rounds, ?_⟩, ?_, h.loop, h.more⟩, htail⟩
  · intro f hf
    exact h.sound.entered f (List.mem_of_mem_tail hf)
  · rw [htail]
    intro f hf
    have hbefore := hlevel f hf
    unfold Before at *
    dsimp only [Watch.see] at *
    omega

/-- A loop may begin a round where the mark allows its level. -/
theorem Mark.Fits.round {l : Loop} (h : m.Fits s w) (hl : m.loop ≤ l.level) :
    Mark.Fits { m with loop := l.level + 1 } s (w.see (.round l)) := by
  have hearlier : ∀ r ∈ w.rounds, Before (beginning r) (w.passed, l.level) := by
    intro r hr
    have hbefore := h.loop r hr
    unfold Before at *
    dsimp only at *
    omega
  refine ⟨h.ended, h.tokens, ⟨h.sound.frames, .cons hearlier h.sound.rounds, h.sound.entered⟩,
    h.level, ?_, h.more⟩
  intro r hr
  rcases List.mem_cons.1 hr with rfl | hr
  · exact .inr ⟨rfl, Nat.lt_succ_self _⟩
  · refine (hearlier r hr).trans (.inr ⟨rfl, Nat.lt_succ_self _⟩)

/-- Behind a token that has been passed, any rule may be entered and any loop begin a round. -/
theorem Mark.Fits.pass (h : m.Fits s w) (hmore : m.more = true) :
    s.current :: s.advance.tokens = s.tokens ∧
      Mark.Fits ⟨m.tokens - 1, 0, 0, false⟩ s.advance (w.see (.pass s.current)) := by
  have hkind := h.more hmore
  have htokens : s.current :: s.advance.tokens = s.tokens := by
    have hpasses := passes_advance (h.ended.ahead_ne_nil hkind)
    exact hpasses.tokens.symm
  have hlength := congrArg List.length htokens
  have hleft := h.tokens
  rw [List.length_cons] at hlength
  refine ⟨htokens, h.ended.advance hkind, ?_, ⟨h.sound.frames, h.sound.rounds, ?_⟩, ?_, ?_, by simp⟩
  · dsimp only
    omega
  · intro f hf
    exact Nat.le_succ_of_le (h.sound.entered f hf)
  · intro f hf
    exact .inl (Nat.lt_succ_of_le (h.sound.entered f hf))
  · intro r hr
    have hbefore := h.loop r hr
    unfold Before at *
    dsimp only [Watch.see] at *
    omega

/-- Where a mark fits, there is a token. -/
theorem Mark.Fits.tokens_pos (h : m.Fits s w) : 0 < m.tokens :=
  Nat.lt_of_lt_of_le (Nat.succ_pos _) h.tokens

end
end MiniPascal.Grammar
