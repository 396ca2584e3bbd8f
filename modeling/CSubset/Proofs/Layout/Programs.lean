import CSubset.Proofs.Layout.Trees
import CSubset.Proofs.Lowering.Verdicts
import CSubset.Proofs.Visibility.Definitions
import CSubset.Proofs.WellFormed.Trees

/-!
# Reformatting a text

Two texts whose tokens are the same but for their positions are read in the same way or not at all
(`reformatting_keeps_result`): their trees differ in positions only, folding them fails at the same
node or gives trees that differ in positions only, and lowering them gives the same module and the
same errors.

Up to the trees, the two texts are compared through what is left of both if every position is
forgotten (`nowhere`). From there on two trees of one shape are lowered side by side
(`near_of_like`).
-/

namespace CSubset

/-! ## What is left without positions -/

/-- Forget a position. -/
def nowhere (_ : Pos) : Pos := .unknown

/-- The nodes of a tree with their indices in the arena. -/
def Node.numbered (n : Node) : Tree UInt32 := n.map (·.id.index)

section

variable {σ τ υ : Type} {f : σ → τ} {g : τ → υ}

mutual

theorem Tree.map_map : ∀ t : Tree σ, (t.map f).map g = t.map (g ∘ f)
  | .leaf _ _ => rfl
  | .seq _ _ items => congrArg _ (Tree.mapItems_mapItems items)
  | .unary _ _ child => congrArg _ (Tree.mapChild_mapChild child)
  | .binary _ _ left right =>
    congrArg₂ _ (Tree.mapChild_mapChild left) (Tree.mapChild_mapChild right)
  | .ternary l form first second third => by
    simp only [Tree.map, Tree.mapChild_mapChild first, Tree.mapChild_mapChild second,
      Tree.mapChild_mapChild third, Function.comp_apply]

theorem Tree.mapChild_mapChild :
    ∀ c : Option (Tree σ), mapChild g (mapChild f c) = mapChild (g ∘ f) c
  | none => rfl
  | some t => congrArg some t.map_map

theorem Tree.mapItems_mapItems :
    ∀ cs : List (Option (Tree σ)), mapItems g (mapItems f cs) = mapItems (g ∘ f) cs
  | [] => rfl
  | c :: cs => congrArg₂ _ (Tree.mapChild_mapChild c) (Tree.mapItems_mapItems cs)

end

end

theorem Node.numbered_relocate (n : Node) (g : UInt32) (f : Pos → Pos) :
    (n.relocate g f).numbered = n.numbered :=
  Tree.map_map n

theorem Node.shape_relocate (n : Node) (g : UInt32) (f : Pos → Pos) :
    (n.relocate g f).shape = n.shape :=
  Tree.map_map n

/-- Both fail in a similar way, or both have similar results. -/
inductive Agree {ε α : Type} (E : ε → ε → Prop) (R : α → α → Prop) :
    Except ε α → Except ε α → Prop where
  | error {e e' : ε} (h : E e e') : Agree E R (.error e) (.error e')
  | ok {a a' : α} (h : R a a') : Agree E R (.ok a) (.ok a')

theorem Agree.mono {ε α : Type} {E : ε → ε → Prop} {R S : α → α → Prop} {x y : Except ε α}
    (h : Agree E R x y) (hR : ∀ a a', x = .ok a → y = .ok a' → R a a' → S a a') :
    Agree E S x y := by
  cases h with
  | error h => exact .error h
  | ok h => exact .ok (hR _ _ rfl rfl h)

/-- Two files with the same nodes in the same order, at different positions. -/
structure File.SameButPlaces (file file' : File) : Prop where
  root : file.root.map Node.numbered = file'.root.map Node.numbered
  nodes : file.arena.nodes.map Node.numbered = file'.arena.nodes.map Node.numbered

namespace Lowering

variable {n : Node}

/-- The errors of a report. -/
def Outcome.errors (out : Outcome (Option Failure)) : List Diagnostic :=
  (out.result.map Failure.diagnosticList).getD []

/-- The same module, and reports that differ in positions only. -/
structure SameButPlaces (out out' : Outcome (Option Failure)) : Prop where
  module : out.state.module = out'.state.module
  errors : out.errors.map (fun d => (d.kind, d.place.map (·.kind), d.func, d.message)) =
    out'.errors.map (fun d => (d.kind, d.place.map (·.kind), d.func, d.message))
  warnings : out.warnings.map (·.cause) = out'.warnings.map (·.cause)

/-- Lowering two trees ends, with one module and reports that differ in positions only. -/
def LoweredAlike (root root' : Option Node) : Prop :=
  ∀ sourceName, ∃ out out', build sourceName root = .ok out ∧ build sourceName root' = .ok out' ∧
    SameButPlaces out out'

/-! ## Lowering -/

variable {sourceName : String} {stamp stamp' : Stamp} {items items' : List (Option Node)}
  {out out' : Outcome (Option Failure)} {R : Pos → Pos → Prop}

/-- Lowering never looks at a position, it only hands positions on to what it reports: from programs
of one shape it ends in states that are the same but for the positions in the reports. -/
theorem near_of_like (hlikes : List.Forall₂ (Option.Rel (Node.Like R)) items items')
    (h : Gives (visitTopLevel items) (State.start sourceName) () out.state)
    (h' : Gives (visitTopLevel items') (State.start sourceName) () out'.state) :
    out.state.Near R out'.state := by
  have htwins : (State.start sourceName).Twins ⟨fun _ => False, False, R⟩ (fun _ => True)
      (State.start sourceName) :=
    (State.sound_start sourceName).toSteady.twins R ⟨rfl, rfl⟩
  cases parallel_visitTopLevel hlikes (fun _ _ => trivial) htwins with
  | gives hx hy htwins =>
    obtain ⟨-, rfl⟩ := h.unique hx
    obtain ⟨-, rfl⟩ := h'.unique hy
    exact htwins.near.resolve_left id
  | stops hx _ _ _ => exact absurd hx h.not_stops

/-- The errors of a report are the rejections so far. -/
theorem errors_of_build (h : build sourceName (some n) = .ok out) :
    out.errors = out.state.rejections.map Rejection.diagnostic := by
  have hlist : ∀ ds : List Diagnostic,
      ((Failure.ofDiagnostics? ds).map Failure.diagnosticList).getD [] = ds := by
    intro ds
    cases ds <;> rfl
  obtain ⟨-, hout⟩ := build_eq_ok_iff.mp h
  rw [hout]
  exact hlist _

theorem Rejection.Near.diagnostic {r r' : Rejection} (h : r.Near R r') :
    (fun d : Diagnostic => (d.kind, d.place.map (·.kind), d.func, d.message)) r.diagnostic =
      (fun d : Diagnostic => (d.kind, d.place.map (·.kind), d.func, d.message)) r'.diagnostic := by
  obtain ⟨cause, place, func⟩ := r
  obtain ⟨_, place', _⟩ := r'
  obtain ⟨rfl, hplace, rfl⟩ := h
  cases hplace with
  | none => rfl
  | @some p p' hp =>
    have hkind : p'.kind = p.kind := hp.1
    simp [Rejection.diagnostic, hkind]

theorem State.Near.sameButPlaces {n' : Node} (hnear : out.state.Near R out'.state)
    (h : build sourceName (some n) = .ok out) (h' : build sourceName (some n') = .ok out') :
    SameButPlaces out out' where
  module := (congrArg State.module hnear.same).symm
  errors := by
    rw [errors_of_build h, errors_of_build h', List.map_map, List.map_map]
    exact map_eq_of_forall₂ hnear.rejections fun _ _ hr => hr.diagnostic
  warnings := by
    obtain ⟨-, hout⟩ := build_eq_ok_iff.mp h
    obtain ⟨-, hout'⟩ := build_eq_ok_iff.mp h'
    rw [hout, hout']
    exact map_eq_of_forall₂ hnear.warnings fun _ _ hw => hw.cause.symm

/-- Programs of one shape are lowered alike. -/
theorem loweredAlike_of_sameShape (hwhole : Node.Whole (.seq stamp .program items))
    (hwhole' : Node.Whole (.seq stamp' .program items'))
    (h : Node.SameShape (.seq stamp .program items) (.seq stamp' .program items')) :
    LoweredAlike (some (.seq stamp .program items)) (some (.seq stamp' .program items')) := by
  intro sourceName
  obtain ⟨out, hbuild, hgives⟩ := build_of_whole sourceName hwhole
  obtain ⟨out', hbuild', hgives'⟩ := build_of_whole sourceName hwhole'
  cases h with
  | seq _ hlikes =>
    have hnear := near_of_like hlikes hgives hgives'
    exact ⟨out, out', hbuild, hbuild', hnear.sameButPlaces hbuild hbuild'⟩

end Lowering

/-! ## Reading and folding -/

section

variable {text text' : List Char} {file file' : File} {ts ts' : List Token} {generation : UInt32}
  {path : String}

theorem Token.relocate_nowhere (h : ts.map Token.spelling = ts'.map Token.spelling) :
    ts.map (Token.relocate nowhere) = ts'.map (Token.relocate nowhere) := by
  have hkey (us : List Token) : us.map (Token.relocate nowhere) =
      (us.map Token.spelling).map fun p => ⟨p.1, p.2, .unknown⟩ := by
    rw [List.map_map]
    rfl
  rw [hkey, hkey, h]

/-- Tokens with the same kinds and texts spell the same program, elsewhere. -/
theorem Surface.Phrase.Members.of_spelling {es : List External}
    (hsame : ts.map Token.spelling = ts'.map Token.spelling) (h : Members ts es) :
    ∃ es', Members ts' es' ∧ es.map (External.relocate nowhere) = es'.map
      (External.relocate nowhere) := by
  have hderives : Grammar.Derives .program ts' :=
    Grammar.unplaced_language .program _ _ hsame (Grammar.derives_program_iff.mpr ⟨_, h⟩)
  obtain ⟨es', h'⟩ := Grammar.derives_program_iff.mp hderives
  -- Without positions the tokens are the same, and they are read as one list of declarations.
  have hmoved := Parser.externals_eq_ok_iff.mpr (h.relocate (f := nowhere))
  have hmoved' := Parser.externals_eq_ok_iff.mpr (h'.relocate (f := nowhere))
  rw [Token.relocate_nowhere hsame, hmoved'] at hmoved
  exact ⟨es', h', (Except.ok.inj hmoved).symm⟩

/-- A text with the tokens of a program is read as that program, elsewhere. -/
theorem Surface.Program.ofText_of_members {program : Program}
    (hmembers : Phrase.Members ts program.externals)
    (h : ts.map Token.spelling = (TokenStream.ofText text).tokens.map Token.spelling) :
    ∃ program', Program.ofText text = .ok program' ∧
      program.relocate nowhere = program'.relocate nowhere := by
  obtain ⟨es, hmembers', hsame⟩ := hmembers.of_spelling h
  refine ⟨⟨_, es⟩, Program.ofText_eq_ok_iff.mpr ⟨hmembers', rfl⟩, ?_⟩
  show (⟨.unknown, _⟩ : Program) = ⟨.unknown, _⟩
  rw [hsame]

theorem Arena.numbered_relocated {f : Pos → Pos} {g g' : UInt32} {a a' : Arena}
    (h : Relocated f g g' a a') : a'.nodes.map Node.numbered = a.nodes.map Node.numbered := by
  rw [h.nodes, Array.map_map]
  exact Array.map_congr_left fun n _ => Node.numbered_relocate n g' f

/-- The tree of a file without positions. -/
def File.bare (file : File) : File := ⟨"", .empty 0, file.root.map (Node.relocate 0 nowhere)⟩

/-- Two files that are the same without positions. -/
structure File.Beside (file file' : File) : Prop where
  bare : file.bare = file'.bare
  nodes : file.arena.nodes.map Node.numbered = file'.arena.nodes.map Node.numbered

theorem File.Beside.sameButPlaces (h : file.Beside file') : file.SameButPlaces file' where
  root := by
    have hnumbered (c : Option Node) : (c.map (Node.relocate 0 nowhere)).map Node.numbered =
        c.map Node.numbered := by
      rw [Option.map_map]
      exact congrArg (Option.map · c) (funext fun n => n.numbered_relocate 0 nowhere)
    have hroots : file.root.map (Node.relocate 0 nowhere) = file'.root.map
        (Node.relocate 0 nowhere) :=
      congrArg File.root h.bare
    rw [← hnumbered file.root, hroots, hnumbered]
  nodes := h.nodes

theorem File.beside_of_parse (generation' : UInt32) (path' : String)
    (hsame : (TokenStream.ofText text).tokens.map Token.spelling =
      (TokenStream.ofText text').tokens.map Token.spelling)
    (h : File.parse generation path text = .ok file) :
    ∃ file', File.parse generation' path' text' = .ok file' ∧ file.Beside file' := by
  obtain ⟨program, hread, rfl⟩ := File.parse_eq_ok_iff.mp h
  obtain ⟨hmembers, -⟩ := Surface.Program.ofText_eq_ok_iff.mp hread
  obtain ⟨program', hread', hprogram⟩ := Surface.Program.ofText_of_members hmembers hsame
  refine ⟨_, File.parse_eq_ok_iff.mpr ⟨program', hread', rfl⟩, ?_⟩
  -- Both trees are moved to the tree of the program without positions.
  obtain ⟨hroot, harena⟩ := program.moves_build _ _ (Arena.relocated_empty nowhere generation 0)
  obtain ⟨hroot', harena'⟩ := program'.moves_build _ _ (Arena.relocated_empty nowhere generation' 0)
  rw [hprogram] at hroot harena
  constructor
  · exact congrArg (fun n => (⟨"", .empty 0, some n⟩ : File)) (hroot.symm.trans hroot')
  · exact (Arena.numbered_relocated harena).symm.trans (Arena.numbered_relocated harena')

/-- Folding a file does what folding it without positions does. -/
theorem File.fold_bare (file : File) (generation : UInt32) :
    Agree (fun e e' => e' = e.relocate 0 nowhere)
      (fun folded folded' => folded'.root = folded.root.map (Node.relocate 0 nowhere) ∧
        folded'.arena.nodes.map Node.numbered = folded.arena.nodes.map Node.numbered)
      (file.fold generation) (file.bare.fold 0) := by
  obtain ⟨hresult, harena⟩ :=
    Node.moves_foldChild (h := 0) file.root _ _ (Arena.relocated_empty nowhere generation 0)
  rw [Node.mapChild_eq] at hresult harena
  unfold File.fold
  dsimp only [File.bare]
  rcases hrun : (Node.foldChild file.root).run.run (.empty generation) with ⟨_ | root, arena⟩ <;>
    rcases hrun' : (Node.foldChild (file.root.map (Node.relocate 0 nowhere))).run.run
    (.empty 0) with ⟨r', arena'⟩ <;> rw [hrun, hrun'] at hresult harena <;> subst hresult
  · exact .error rfl
  · exact .ok ⟨rfl, Arena.numbered_relocated harena⟩

/-- Files that are the same without positions are folded alike, or folding both fails at the same
node. -/
theorem File.Beside.fold (h : file.Beside file') (generation generation' : UInt32) :
    Agree (fun e e' => e.cause = e'.cause ∧ e.stamp.id.index = e'.stamp.id.index) File.Beside
      (file.fold generation) (file'.fold generation') := by
  have hfold := file.fold_bare generation
  have hfold' := file'.fold_bare generation'
  rw [h.bare] at hfold
  revert hfold hfold'
  generalize file.fold generation = r, file'.fold generation' = r', file'.bare.fold 0 = b
  rintro (⟨he⟩ | ⟨hroot, hnodes⟩) hfold'
  · cases hfold' with
    | error he' =>
      have hmoved := he.symm.trans he'
      have hcause := congrArg FoldError.cause hmoved
      have hindex := congrArg (fun e : FoldError => e.stamp.id.index) hmoved
      exact .error ⟨hcause, hindex⟩
  · cases hfold' with
    | ok h' =>
      refine .ok ⟨congrArg (fun c => (⟨"", .empty 0, c⟩ : File)) (hroot.symm.trans h'.1),
        hnodes.symm.trans h'.2⟩

/-! ## Both ways -/

theorem File.Beside.loweredAlike {stamp stamp' : Stamp} {items items' : List (Option Node)}
    (h : file.Beside file') (hroot : file.root = some (.seq stamp .program items))
    (hroot' : file'.root = some (.seq stamp' .program items'))
    (hitems : Node.AllItems Node.IsMember items) (hitems' : Node.AllItems Node.IsMember items') :
    Lowering.LoweredAlike file.root file'.root := by
  have hroots := congrArg File.root h.bare
  simp only [File.bare, hroot, hroot', Option.map_some] at hroots
  have hshapes := congrArg Tree.shape (Option.some.inj hroots)
  rw [Node.shape_relocate, Node.shape_relocate] at hshapes
  rw [hroot, hroot']
  exact Lowering.loweredAlike_of_sameShape (Node.whole_of_members hitems)
    (Node.whole_of_members hitems') (Node.sameShape_iff.mp hshapes)

/-- Two texts with the same tokens, wherever the tokens are, have the same result: both can be read
or neither. The trees have the same nodes with the same indices, and are lowered to the same module
with the same errors. Folding fails on both and blames the same node, or the folded trees have the
same nodes and are lowered to the same module with the same errors. -/
theorem reformatting_keeps_result (generation generation' : UInt32) (path path' : String)
    (hsame : (TokenStream.ofText text).tokens.map Token.spelling =
      (TokenStream.ofText text').tokens.map Token.spelling) :
    Agree (fun _ _ => True)
      (fun file file' => file.SameButPlaces file' ∧ Lowering.LoweredAlike file.root file'.root ∧
        ∀ generation generation', Agree (fun e e' => e.cause = e'.cause ∧
          e.stamp.id.index = e'.stamp.id.index)
          (fun folded folded' => folded.SameButPlaces folded' ∧
            Lowering.LoweredAlike folded.root folded'.root)
          (file.fold generation) (file'.fold generation'))
      (File.parse generation path text) (File.parse generation' path' text') := by
  cases hparse : File.parse generation path text with
  | error e =>
    cases hparse' : File.parse generation' path' text' with
    | error e' => exact .error trivial
    | ok file' =>
      -- the other text can be read, so this one can
      obtain ⟨file, hread, -⟩ := File.beside_of_parse generation path hsame.symm hparse'
      rw [hparse] at hread
      cases hread
  | ok file =>
    obtain ⟨file', hparse', hbeside⟩ := File.beside_of_parse generation' path' hsame hparse
    obtain ⟨_, _, hroot, hitems⟩ := File.members_of_parse hparse
    obtain ⟨_, _, hroot', hitems'⟩ := File.members_of_parse hparse'
    rw [hparse']
    refine .ok ⟨hbeside.sameButPlaces, hbeside.loweredAlike hroot hroot' hitems hitems',
      fun g g' => ?_⟩
    refine (hbeside.fold g g').mono fun folded folded' hfold hfold' hbeside => ?_
    obtain ⟨_, _, hroot, hitems⟩ := File.members_of_fold hparse hfold
    obtain ⟨_, _, hroot', hitems'⟩ := File.members_of_fold hparse' hfold'
    exact ⟨hbeside.sameButPlaces, hbeside.loweredAlike hroot hroot' hitems hitems'⟩

end

/-- One text twice, on one line and on three. -/
def joined : List Char := "int f(int a) { a = a + 2 * 3; return a; }".toList

def spread : List Char := "int f(int\na)\x7ba=a+2*3;\n  return a ;  \x7d\n".toList

theorem spread_keeps_result :
    ∃ file file' folded folded', File.parse 0 "a.c" joined = .ok file ∧
      File.parse 0 "a.c" spread = .ok file' ∧
      (TokenStream.ofText joined).tokens ≠ (TokenStream.ofText spread).tokens ∧
        file.SameButPlaces file' ∧
      Lowering.LoweredAlike file.root file'.root ∧ file.fold 1 = .ok folded ∧
        file'.fold 1 = .ok folded' ∧
      folded.SameButPlaces folded' ∧ Lowering.LoweredAlike folded.root folded'.root := by
  have hcheck :
      (((TokenStream.ofText joined).tokens.map Token.spelling =
      (TokenStream.ofText spread).tokens.map Token.spelling ∧
      (TokenStream.ofText joined).tokens.getLast?.map (·.pos.line) = some 1 ∧
      (TokenStream.ofText spread).tokens.getLast?.map (·.pos.line) = some 3) &&
      (File.parse 0 "a.c" joined).toOption.any fun file => (file.fold 1).toOption.isSome) =
      true := by
    decide +kernel
  rw [Bool.and_eq_true, decide_eq_true_eq] at hcheck
  obtain ⟨⟨hsame, hline, hline'⟩, hcheck⟩ := hcheck
  have hmoved : (TokenStream.ofText joined).tokens ≠ (TokenStream.ofText spread).tokens := by
    intro heq
    rw [heq, hline'] at hline
    exact absurd hline (by decide)
  have hagree := reformatting_keeps_result 0 0 "a.c" "a.c" hsame
  obtain ⟨file, hparse, hcheck⟩ := exists_ok_of_any hcheck
  cases hparse' : File.parse 0 "a.c" spread with
  | error e =>
    rw [hparse, hparse'] at hagree
    cases hagree
  | ok file' =>
    rw [hparse, hparse'] at hagree
    obtain _ | ⟨hfile, hlowered, hfolds⟩ := hagree
    have hfolds := hfolds 1 1
    cases hfold : file.fold 1 with
    | error e => simp [hfold, Except.toOption] at hcheck
    | ok folded =>
      rw [hfold] at hfolds
      cases hfold' : file'.fold 1 with
      | error e =>
        rw [hfold'] at hfolds
        cases hfolds
      | ok folded' =>
        rw [hfold'] at hfolds
        obtain _ | ⟨hfolded, hlowered'⟩ := hfolds
        exact ⟨file, file', folded, folded', hparse, rfl, hmoved, hfile, hlowered, hfold, hfold',
          hfolded, hlowered'⟩

end CSubset
