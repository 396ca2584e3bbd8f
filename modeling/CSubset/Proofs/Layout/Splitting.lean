import CSubset.Proofs.Layout.Spelled
import CSubset.Proofs.Surface.Declarations
import CSubset.Proofs.Surface.Starts

/-!
# Splitting declarations

Several variables may be declared together or one by one, at the top of a program and in a block:
one text is read exactly if the other is, to trees of the same shape (`declarations_split`). Each
variable gives a declaration and, if it has a first value, an assignment.
-/

namespace CSubset.Surface

open Phrase
open CSubset.Tree (Context)
open CSubset.Surface.Parser (headKind)

variable {d : InitDeclarator} {v : Variable}

namespace Variable

/-- The name with its stars. -/
def leaf (v : Variable) : Tree Unit := .leaf () (.names [v.name.text] v.stars.length)

/-- The declaration of a variable of the type, and the assignment of its first value. -/
def nodes (spec : TypeSpec) (v : Variable) (value : Option (Tree Unit)) : List (Tree Unit) :=
  .binary () .forward (some (.leaf () (.type (.known spec.tag) spec.isConst))) (some v.leaf) ::
    value.toList.map fun t => .binary () .assign (some v.leaf) (some t)

/-- The first value is spelled as an expression of that shape. -/
def HasValue (v : Variable) (value : Option (Tree Unit)) : Prop :=
  Option.Rel (fun init t => ∃ e, Assignment init.2 e ∧ e.outline.shape = t) v.init value

end Variable

/-- The shape of the first value. -/
def InitDeclarator.value (d : InitDeclarator) : Option (Tree Unit) :=
  d.init.map fun init => init.value.outline.shape

theorem Variable.ReadAs.hasValue (h : v.ReadAs d) : v.HasValue d.value := by
  have hinit := h.init
  rw [Variable.initTokens] at hinit
  rw [Variable.HasValue, InitDeclarator.value]
  generalize v.init = spelled at hinit
  generalize d.init = init at hinit
  rcases spelled with _ | ⟨t, ts⟩
  · cases hinit with
    | absent => exact .none
  · cases hinit with
    | value _ h => exact .some ⟨_, h, rfl⟩

theorem Variable.ReadAs.shape_outlines (h : v.ReadAs d) (spec : TypeSpec) :
    (d.outlines spec.pos spec).map Tree.shape = v.nodes spec d.value := by
  have hname : d.declarator.outline.shape = v.leaf := by
    rw [h.declarator]
    rfl
  rw [InitDeclarator.outlines, Variable.nodes, InitDeclarator.value, ← hname]
  cases d.init <;> rfl

theorem shape_outlines {vs : List Variable} {ds : List InitDeclarator}
    (h : List.Forall₂ Variable.ReadAs vs ds) (spec : TypeSpec) :
    (ds.flatMap (InitDeclarator.outlines spec.pos spec)).map Tree.shape =
      (List.zipWith (Variable.nodes spec) vs (ds.map InitDeclarator.value)).flatten := by
  induction h with
  | nil => rfl
  | cons hfirst _ ih =>
    rw [List.flatMap_cons, List.map_append, ih, hfirst.shape_outlines]
    rfl

/-! ## Programs -/

/-- A list of phrases somewhere in a program gives nodes that stand next to one another. -/
def Spread {β : Type} (nodes : β → List (Tree Pos)) (form : SeqForm) (F : List β → List External) :
    Prop :=
  ∃ (context : Context Pos) (place : Pos) (front : List (Tree Pos)), ∀ zs, Program.outline
    ⟨.unknown, F zs⟩ = context.fill (.seq place form ((front ++ zs.flatMap nodes).map some))

theorem spread_members (front : List External) :
    Spread External.outlines .program (front ++ ·) := by
  refine ⟨[], .unknown, front.flatMap External.outlines, fun zs => ?_⟩
  rw [Program.outline, List.flatMap_append]
  rfl

theorem spread_statements {place : Pos} {items : List (Tree Pos)} {F : List Stmt → List External}
    (h : MembersHold (fun zs => .seq place .block ((items ++ Stmt.allOutlines zs).map some)) F) :
    Spread Stmt.outlines .block F := by
  obtain ⟨context, hcontext⟩ := h.seq .unknown .program
  refine ⟨context, place, items, fun zs => ?_⟩
  rw [← Stmt.allOutlines_eq]
  exact hcontext zs

/-- The two lists of tokens, and the one without the variables, are programs. Their trees differ in
the nodes of the variables only. -/
def Alike (spec : TypeSpec) (vs : List Variable) (ts ts' ts'' : List Token) : Prop :=
  ∃ es es' es'' ds form, ∃ (context : Context Pos) (place : Pos) (front back : List (Tree Pos)),
    Members ts es ∧ Members ts' es' ∧ Members ts'' es'' ∧ List.Forall₂ Variable.ReadAs vs ds ∧
    (form = .program ∨ form = .block) ∧
    Program.outline ⟨.unknown, es⟩ = context.fill (.seq place form
      ((front ++ (ds.flatMap (InitDeclarator.outlines spec.pos spec) ++ back)).map some)) ∧
    Program.outline ⟨.unknown, es'⟩ = Program.outline ⟨.unknown, es⟩ ∧
    Program.outline ⟨.unknown, es''⟩ = context.fill (.seq place form ((front ++ back).map some))

section

variable {type before after : List Token} {spec : TypeSpec} {v : Variable} {vs : List Variable}
  {es : List External}

theorem alike_of_gap {β : Type} {L : List Token → List β → Prop} {vars : VarDecl → β}
    {nodes : β → List (Tree Pos)} {outer ts : List Token} {form : SeqForm}
    {F : List β → List External} {ds : List InitDeclarator} {ys : List β}
    (hlist : Listing L vars nodes outer) (htype : TypeName type spec)
    (hgap : Gap L Members (Spread nodes form) before outer F)
    (hform : form = .program ∨ form = .block) (hread : List.Forall₂ Variable.ReadAs (v :: vs) ds)
    (hmore : L ts ys) :
    Alike spec (v :: vs) (before ++ (together type v vs ++ (ts ++ outer)))
      (before ++ (apart type (v :: vs) ++ (ts ++ outer)))
      (before ++ (ts ++ outer)) := by
  obtain ⟨context, place, front, houtline⟩ := hgap.holds
  rcases ds with _ | ⟨d, ds⟩
  · cases hread
  have htogether := hgap.phrase _ _ (hlist.cons_together htype hread hmore)
  have hapart := hgap.phrase _ _ (hlist.cons_apart htype hread hmore)
  rw [List.append_assoc] at htogether hapart
  have hnodes : (vars ⟨spec.pos, spec, d, ds⟩ :: ys).flatMap nodes =
      (d :: ds).flatMap (InitDeclarator.outlines spec.pos spec) ++ ys.flatMap nodes := by
    rw [List.flatMap_cons, hlist.nodes_together]
  refine ⟨_, _, _, d :: ds, form, context, place, front, ys.flatMap nodes, htogether, hapart,
    hgap.phrase _ _ hmore, hread, hform, ?_, ?_, houtline ys⟩
  · rw [houtline, hnodes]
  · rw [houtline, houtline, hnodes, List.flatMap_append, hlist.nodes_apart]

/-- A program with declarations of the variables at a place where a declaration may begin. The
tokens `decls` are those of the declarations, in one form or the other. -/
theorem alike_of_members {decls : List Token} (htype : TypeName type spec) (hstart : AtStart before)
    (h : Members (before ++ (decls ++ after)) es)
    (hdecls : (headKind (decls ++ after)).startsType = true)
    (huncons : ∀ {β : Type} {L : List Token → List β → Prop} {vars : VarDecl → β} {nodes : β →
      List (Tree Pos)} {outer ts : List Token} {ys : List β}, Listing L vars nodes outer → L ts ys →
      ts ++ outer = decls ++ after → ∃ ts' ds ys', after = ts' ++ outer ∧
      List.Forall₂ Variable.ReadAs (v :: vs) ds ∧ L ts' ys') :
    Alike spec (v :: vs) (before ++ (together type v vs ++ after))
      (before ++ (apart type (v :: vs) ++ after))
      (before ++ after) := by
  obtain ⟨t, rest, hrest, ht⟩ : ∃ t rest, decls ++ after = t :: rest ∧
      t.kind.startsType = true := by
    generalize decls ++ after = us at hdecls
    rcases us with _ | ⟨t, rest⟩
    · cases hdecls
    · exact ⟨t, rest, rfl, hdecls⟩
  rw [hrest] at h
  -- The declarations are at the top of the program, or in a block behind which `outer` follows.
  rcases h.start ht hstart rfl with ⟨ys, front, hys, hfront⟩ | ⟨ts, outer, ss, place, items, F,
    heq, hss, hgap⟩
  · obtain ⟨ts', ds, ys', rfl, hread, hmore⟩ :=
      huncons listing_members hys (by rw [List.append_nil, hrest])
    refine alike_of_gap listing_members htype ⟨fun us zs hus => ?_, spread_members front⟩
      (.inl rfl) hread hmore
    rw [List.append_nil]
    exact hfront us zs hus
  · obtain ⟨ts', ds, ys', rfl, hread, hmore⟩ :=
      huncons (listing_statements outer) hss (by rw [← heq, hrest])
    exact alike_of_gap (listing_statements outer) htype ⟨hgap.phrase, spread_statements hgap.holds⟩
      (.inr rfl) hread hmore

theorem alike_of_together (htype : TypeName type spec) (hstart : AtStart before)
    (h : Members (before ++ (together type v vs ++ after)) es) :
    Alike spec (v :: vs) (before ++ (together type v vs ++ after))
      (before ++ (apart type (v :: vs) ++ after))
      (before ++ after) := by
  refine alike_of_members htype hstart h ?_ fun hlist hys heq => ?_
  · rw [together, List.append_assoc]
    exact htype.starts _
  · obtain ⟨ts', d, ds, ys', -, hafter, -, hread, hmore⟩ := hlist.uncons_together htype hys heq
    exact ⟨ts', d :: ds, ys', hafter, hread, hmore⟩

theorem alike_of_apart (htype : TypeName type spec) (hstart : AtStart before)
    (h : Members (before ++ (apart type (v :: vs) ++ after)) es) :
    Alike spec (v :: vs) (before ++ (together type v vs ++ after))
      (before ++ (apart type (v :: vs) ++ after))
      (before ++ after) := by
  refine alike_of_members htype hstart h ?_ fun hlist hys heq => ?_
  · rw [apart_cons, together, List.append_assoc, List.append_assoc]
    exact htype.starts _
  · obtain ⟨ts', ds, ys', -, hafter, -, hread, hmore⟩ := hlist.uncons_apart htype hys heq
    exact ⟨ts', ds, ys', hafter, hread, hmore⟩

end

end CSubset.Surface

namespace CSubset

open Surface Surface.Phrase

/-! ## Texts -/

theorem shape_fill_seq (context : Tree.Context Pos) (place : Pos) (form : SeqForm)
    (ts : List (Tree Pos)) :
    (context.fill (.seq place form (ts.map some))).shape =
      (context.map fun _ => ()).fill (.seq () form ((ts.map Tree.shape).map some)) := by
  rw [Tree.shape, Tree.Context.map_fill, ← Tree.shape, Printing.shape_seq]

/-- The two files have trees of the same shape. In it are the nodes of the variables, and without
them it is the shape of the tree of each text with the tokens `ts`. -/
def SplitAlike (spec : TypeSpec) (vs : List Variable) (ts : List Token) (generation : UInt32)
    (path : String) (file file' : File) : Prop :=
  ∃ root root', file.root = some root ∧ file'.root = some root' ∧ root.shape = root'.shape ∧
    ∃ (context : Tree.Context Unit) (form : SeqForm) (front back : List (Tree Unit))
    (values : List (Option (Tree Unit))), (form = .program ∨ form = .block) ∧
    List.Forall₂ Variable.HasValue vs values ∧
    root.shape = context.fill
    (.seq () form ((front ++ ((List.zipWith (Variable.nodes spec) vs values).flatten ++ back)).map
    some)) ∧ ∀ text, Spells text ts → ∃ file root, File.parse generation path text = .ok file ∧
    file.root = some root ∧ root.shape = context.fill (.seq () form ((front ++ back).map some))

theorem splitAlike_of_alike {spec : TypeSpec} {vs : List Variable} {ts ts' ts'' : List Token}
    {text text' : List Char} (h : Alike spec vs ts ts' ts'') (htext : Spells text ts)
    (htext' : Spells text' ts') (generation : UInt32) (path : String) :
    ∃ file file', File.parse generation path text = .ok file ∧
      File.parse generation path text' = .ok file' ∧
      SplitAlike spec vs ts'' generation path file file' := by
  obtain ⟨es, es', es'', ds, form, context, place, front, back, hes, hes', hes'', hread, hform,
      houtline, hsame, hrest⟩ :=
    h
  obtain ⟨file, root, hparse, hroot, hshape⟩ := parse_of_members htext hes generation path
  obtain ⟨file', root', hparse', hroot', hshape'⟩ := parse_of_members htext' hes' generation path
  refine ⟨file, file', hparse, hparse', root, root', hroot, hroot', ?_, context.map fun _ => (),
    form, front.map Tree.shape, back.map Tree.shape, ds.map InitDeclarator.value, hform, ?_, ?_,
    fun text'' htext'' => ?_⟩
  · rw [hshape, hshape', hsame]
  · exact List.forall₂_map_right_iff.mpr (hread.imp fun _ _ => Variable.ReadAs.hasValue)
  · rw [hshape, houtline, shape_fill_seq, ← shape_outlines hread, ← List.map_append,
      ← List.map_append]
  · obtain ⟨file'', root'', hparse'', hroot'', hshape''⟩ :=
      parse_of_members htext'' hes'' generation path
    refine ⟨file'', root'', hparse'', hroot'', ?_⟩
    rw [hshape'', hrest, shape_fill_seq, List.map_append]

/-- Variables may be declared together or one by one, at the top of a program or in a block. Either
both texts are read or neither, and then to trees of the same shape. -/
theorem declarations_split {type before after : List Token} {spec : TypeSpec} {v : Variable}
    {vs : List Variable} {text text' : List Char} (htype : TypeName type spec)
    (hstart : AtStart before) (htext : Spells text (before ++ (together type v vs ++ after)))
    (htext' : Spells text' (before ++ (apart type (v :: vs) ++ after))) (generation : UInt32)
    (path : String) :
    Agree (fun _ _ => True) (SplitAlike spec (v :: vs) (before ++ after) generation path)
      (File.parse generation path text) (File.parse generation path text') := by
  have hboth (h : Alike spec (v :: vs) (before ++ (together type v vs ++ after))
      (before ++ (apart type (v :: vs) ++ after)) (before ++ after)) :
      Agree (fun _ _ => True) (SplitAlike spec (v :: vs) (before ++ after) generation path)
        (File.parse generation path text) (File.parse generation path text') := by
    obtain ⟨file, file', hparse, hparse', halike⟩ :=
      splitAlike_of_alike h htext htext' generation path
    rw [hparse, hparse']
    exact .ok halike
  rcases hparse : File.parse generation path text with e | file
  · rcases hparse' : File.parse generation path text' with e' | file'
    · exact .error trivial
    · obtain ⟨es, hes⟩ := exists_members_of_parse htext' hparse'
      have hagree := hboth (alike_of_apart htype hstart hes)
      rwa [hparse, hparse'] at hagree
  · obtain ⟨es, hes⟩ := exists_members_of_parse htext hparse
    have hagree := hboth (alike_of_together htype hstart hes)
    rwa [hparse] at hagree

/-- A pointer with a call as its first value. -/
def pointerVariable : Variable where
  stars := [Printing.fixed .star]
  name := ⟨.identifier, "p", .unknown⟩
  init := some (Printing.fixed .assign, [⟨.identifier, "f", .unknown⟩, Printing.fixed .leftParen,
    ⟨.integer, "1", .unknown⟩, Printing.fixed .comma, ⟨.integer, "2", .unknown⟩,
    Printing.fixed .rightParen])
  stars_kind := by decide
  name_kind := rfl
  init_kind := by simp [Printing.fixed]
  init_enclosed := by decide

/-- A variable with an assignment as its first value. -/
def numberVariable : Variable where
  stars := []
  name := ⟨.identifier, "n", .unknown⟩
  init := some (Printing.fixed .assign, [⟨.identifier, "m", .unknown⟩, Printing.fixed .assign,
    ⟨.integer, "3", .unknown⟩])
  stars_kind := by decide
  name_kind := rfl
  init_kind := by simp [Printing.fixed]
  init_enclosed := by decide

def variablesTogether : List Char :=
  "int g() \x7b int *p = f(1, 2), n = m = 3; return n; \x7d".toList

def variablesApart : List Char :=
  "int g() \x7b int *p = f(1, 2); int n = m = 3; return n; \x7d".toList

/-- The tokens in front of the variables. -/
def variablesBefore : List Token :=
  [Printing.fixed .kwInt, ⟨.identifier, "g", .unknown⟩, Printing.fixed .leftParen,
    Printing.fixed .rightParen, Printing.fixed .leftBrace]

/-- The tokens behind the variables. -/
def variablesAfter : List Token :=
  [Printing.fixed .kwReturn, ⟨.identifier, "n", .unknown⟩, Printing.fixed .semicolon,
    Printing.fixed .rightBrace]

/-- In a block, with a comma and an assignment in the first values. -/
theorem variables_split :
    ∃ file file', File.parse 0 "a.c" variablesTogether = .ok file ∧
      File.parse 0 "a.c" variablesApart = .ok file' ∧
      SplitAlike ⟨.unknown, .int, false⟩ [pointerVariable, numberVariable]
        (variablesBefore ++ variablesAfter) 0 "a.c"
        file file' := by
  have htype : TypeName [Printing.fixed .kwInt] ⟨.unknown, .int, false⟩ := .mk .absent rfl .absent
  have htext : Spells variablesTogether
      (variablesBefore ++ (together [Printing.fixed .kwInt] pointerVariable [numberVariable] ++
      variablesAfter)) := by
    decide +kernel
  have htext' : Spells variablesApart
      (variablesBefore ++ (apart [Printing.fixed .kwInt] [pointerVariable, numberVariable] ++
      variablesAfter)) := by
    decide +kernel
  have hok : ((File.parse 0 "a.c" variablesTogether).toOption.any fun _ => true) = true := by
    decide +kernel
  obtain ⟨file, hparse, -⟩ := exists_ok_of_any hok
  have hsplit := declarations_split htype (by decide) htext htext' 0 "a.c"
  rw [hparse] at hsplit
  generalize File.parse 0 "a.c" variablesApart = parsed at hsplit ⊢
  cases hsplit with
  | ok halike => exact ⟨file, _, hparse, rfl, halike⟩

end CSubset
