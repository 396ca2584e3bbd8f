import CSubset.Proofs.Folding.Copies
import CSubset.Proofs.Folding.Shape
import CSubset.Proofs.Lowering.Program

/-!
# States of lowering that agree in shape

Two states of lowering are alike if their modules and the bodies under construction agree in shape
up to arithmetic, names stand for slots of the same type, and all else is the same, the warnings
included. Every primitive step keeps states alike; an arithmetic instruction may be appended to the
body of the first state alone (`Frame.Alike.push_left`), since only the type of a result matters to
what comes later.
-/

namespace CSubset.Lowering

open IR

/-! ## Frames -/

/-- The bodies under construction agree in shape. -/
structure Frame.Alike (f g : Frame) : Prop where
  func : g.func = f.func
  ret : g.ret = f.ret
  cursor : g.cursor = f.cursor
  names : g.names = f.names
  blocks : List.Forall₂ Block.Thinned f.blocks g.blocks

namespace Frame.Alike

variable {f g : Frame} {i : Nat} {b c : Block} {op : Op} {t t' : Term}

theorem length (h : f.Alike g) : g.blocks.length = f.blocks.length := h.blocks.length_eq.symm

theorem freshName (h : f.Alike g) (base : String) : g.freshName base = f.freshName base := by
  unfold Frame.freshName
  rw [h.names]

/-- The same block is being filled. -/
theorem filling (h : f.Alike g) (hb : f.Filling i b) : ∃ c, g.Filling i c ∧ b.Thinned c := by
  obtain ⟨c, hc, hbc⟩ := eq_some_of_rel (rel_getElem? h.blocks i) hb.block
  have hopen : c.term.map Term.shape = none := by rw [hbc.term, hb.isOpen, Option.map_none]
  exact ⟨c, ⟨h.cursor.trans hb.cursor, hc, Option.map_eq_none_iff.mp hopen⟩, hbc⟩

theorem isOpen (h : f.Alike g) : g.isOpen = f.isOpen := by
  have hcurrent : Option.Rel (fun p q : Nat × Block => p.1 = q.1 ∧ p.2.Thinned q.2) f.current?
      g.current? := by
    unfold Frame.current?
    rw [h.cursor]
    cases f.cursor with
    | none => exact .none
    | some i =>
      have hrel := rel_getElem? h.blocks i
      simp only [Option.bind_eq_bind, Option.bind_some]
      generalize f.blocks[i]? = b at hrel
      generalize g.blocks[i]? = c at hrel
      cases hrel with
      | none => exact .none
      | some hbc => exact .some ⟨rfl, hbc⟩
  unfold Frame.isOpen
  generalize f.current? = p at hcurrent
  generalize g.current? = q at hcurrent
  cases hcurrent with
  | none => rfl
  | some hbc =>
    have hterm := congrArg Option.isNone hbc.2.term
    simpa only [Option.isNone_map] using hterm

theorem moveTo (h : f.Alike g) (cursor : Option Nat) : (f.moveTo cursor).Alike (g.moveTo cursor) :=
  ⟨h.func, h.ret, rfl, h.names, h.blocks⟩

theorem useName (h : f.Alike g) (base : String) : (f.useName base).Alike (g.useName base) := by
  refine ⟨h.func, h.ret, h.cursor, ?_, h.blocks⟩
  show (_ :: g.names) = (_ :: f.names)
  rw [h.names]

theorem addBlock (h : f.Alike g) (base : String) : (f.addBlock base).Alike (g.addBlock base) := by
  have hblock : Block.Thinned ⟨f.freshName base, [], none⟩ ⟨g.freshName base, [], none⟩ :=
    ⟨h.freshName base, rfl, .nil⟩
  exact ⟨h.func, h.ret, h.cursor, (h.useName base).names, List.rel_append h.blocks
    (.cons hblock .nil)⟩

/-- An instruction of the same shape is appended to both. -/
theorem push {op' : Op} (h : f.Alike g) (hbc : b.Thinned c) (hop : op'.shape = op.shape) :
    (f.push i b op).Alike (g.push i c op') :=
  ⟨h.func, h.ret, h.cursor, h.names, forall₂_set h.blocks i (hbc.concat hop _ _)⟩

/-- Arithmetic is appended to the first alone. -/
theorem push_left (h : f.Alike g) (hb : f.Filling i b) (hop : op.shape.isArithmetic = true) :
    (f.push i b op).Alike g := by
  obtain ⟨c, hc, hbc⟩ := h.filling hb
  exact ⟨h.func, h.ret, h.cursor, h.names, forall₂_set_left h.blocks hc.block
    (hbc.concat_left hop _)⟩

theorem finish (h : f.Alike g) (hbc : b.Thinned c) (ht : t'.shape = t.shape) :
    (f.finish i b t).Alike (g.finish i c t') := by
  refine ⟨h.func, h.ret, h.cursor, h.names, forall₂_set h.blocks i ⟨hbc.label, ?_, hbc.shapes⟩⟩
  rw [Option.map_some, Option.map_some, ht]

theorem endWith (h : f.Alike g) (ht : t'.shape = t.shape) : (f.endWith t).Alike (g.endWith t') := by
  by_cases hopen : f.isOpen = true
  · obtain ⟨i, b, hb⟩ := Frame.isOpen_iff.mp hopen
    obtain ⟨c, hc, hbc⟩ := h.filling hb
    rw [Frame.endWith_of_filling hb, Frame.endWith_of_filling hc]
    exact h.finish hbc ht
  · rw [Frame.endWith_of_not_isOpen hopen, Frame.endWith_of_not_isOpen (by rwa [h.isOpen])]
    exact h

end Frame.Alike

/-! ## States -/

/-- Names stand for functions, or for slots of the same type and owner. -/
inductive Symbol.Alike : Symbol → Symbol → Prop
  | func : Symbol.Alike .func .func
  | var {slot slot' : Value} {owner : Option String} (hty : slot'.ty = slot.ty) :
    Symbol.Alike (.var slot owner) (.var slot' owner)

structure State.Alike (s t : State) : Prop where
  module : s.module.Thinned t.module
  symbols : List.Forall₂ (fun p q => q.1 = p.1 ∧ p.2.Alike q.2) s.symbols t.symbols
  defined : t.defined = s.defined
  scope : t.scope = s.scope
  frame : Option.Rel Frame.Alike s.frame t.frame
  warnings : t.warnings = s.warnings
  rejections : t.rejections = s.rejections

namespace State.Alike

variable {s t : State} {f g : Frame}

theorem frame_eq_some (h : s.Alike t) (hf : s.frame = some f) : ∃ g, t.frame = some g ∧ f.Alike g :=
  eq_some_of_rel h.frame hf

theorem frame_eq_none (h : s.Alike t) (hf : s.frame = none) : t.frame = none :=
  eq_none_of_rel h.frame hf

theorem isOpen (h : s.Alike t) :
    (t.frame.map Frame.isOpen).getD false = (s.frame.map Frame.isOpen).getD false := by
  rcases rel_cases h.frame with ⟨hf, hg⟩ | ⟨f, g, hf, hg, hfg⟩
  · rw [hf, hg]
  · rw [hf, hg]
    exact hfg.isOpen

theorem withFrame (h : s.Alike t) (hfg : f.Alike g) : (s.withFrame f).Alike (t.withFrame g) :=
  { h with frame := .some hfg }

theorem warned (h : s.Alike t) (ws : List Warning) : (s.warned ws).Alike (t.warned ws) :=
  { h with warnings := congrArg (· ++ ws) h.warnings }

theorem bind (h : s.Alike t) (name : String) {x y : Symbol} (hxy : x.Alike y) :
    State.Alike { s with symbols := (name, x) :: s.symbols }
      { t with symbols := (name, y) :: t.symbols } :=
  { h with symbols := .cons ⟨rfl, hxy⟩ h.symbols }

theorem symbol? (h : s.Alike t) (name : String) :
    Option.Rel Symbol.Alike (s.symbol? name) (t.symbol? name) := by
  unfold State.symbol?
  have hsymbols := h.symbols
  generalize s.symbols = xs at hsymbols
  generalize t.symbols = ys at hsymbols
  induction hsymbols with
  | nil => exact .none
  | @cons p q _ _ hfirst _ ih =>
    obtain ⟨x, symbol⟩ := p
    obtain ⟨y, symbol'⟩ := q
    obtain ⟨rfl, hsymbol⟩ := hfirst
    rw [List.lookup_cons, List.lookup_cons]
    cases name == y with
    | true => exact .some hsymbol
    | false => exact ih

theorem resolves (h : s.Alike t) {x : String} {slot : Value} (hx : s.Resolves x slot) :
    ∃ slot', t.Resolves x slot' ∧ slot'.ty = slot.ty := by
  obtain ⟨owner, hsymbol, howner⟩ := hx
  obtain ⟨y, hy, hxy⟩ := eq_some_of_rel (h.symbol? x) hsymbol
  cases hxy with
  | @var _ slot' _ hty =>
    refine ⟨slot', ⟨owner, hy, fun func hfunc => ?_⟩, hty⟩
    -- the owner is the function under construction, in both states
    obtain ⟨f, hf, hname⟩ := Option.map_eq_some_iff.mp (howner func hfunc)
    obtain ⟨g, hg, hfg⟩ := h.frame_eq_some hf
    rw [hg, Option.map_some, hfg.func, hname]

theorem func? (h : s.Alike t) (name : String) :
    Option.Rel Func.Thinned (s.module.func? name) (t.module.func? name) :=
  rel_find? (fun f g hfg => by rw [hfg.name]) h.module.funcs

theorem callee? (h : s.Alike t) {name : String} {fn : Func} (hfn : s.callee? name = some fn) :
    ∃ fn', t.callee? name = some fn' ∧ fn.Thinned fn' := by
  unfold State.callee? at hfn ⊢
  rcases rel_cases (h.symbol? name) with ⟨hx, hy⟩ | ⟨x, y, hx, hy, hxy⟩
  · rw [hx] at hfn
    cases hfn
  · rw [hx] at hfn
    rw [hy]
    cases hxy with
    | func => exact eq_some_of_rel (h.func? name) hfn
    | var => cases hfn

end State.Alike

/-- Alike, and inside a function. -/
structure State.AlikeInside (s t : State) : Prop extends s.Alike t where
  inside : s.frame ≠ none

namespace State.AlikeInside

variable {s t : State} {f g : Frame}

theorem of_frames (h : s.Alike t) (hfg : f.Alike g) : (s.withFrame f).AlikeInside (t.withFrame g) :=
  ⟨h.withFrame hfg, by simp⟩

theorem frames (h : s.AlikeInside t) : ∃ f g, s.frame = some f ∧ t.frame = some g ∧ f.Alike g := by
  obtain ⟨f, hf⟩ := Option.ne_none_iff_exists'.mp h.inside
  obtain ⟨g, hg, hfg⟩ := h.frame_eq_some hf
  exact ⟨f, g, hf, hg, hfg⟩

end State.AlikeInside

end CSubset.Lowering
