import CSubset.Proofs.Visibility.Definitions
import CSubset.Proofs.WellFormed.Trees

/-!
# What one definition means for the others

Two programs have the same members but for one definition, which has another body and other names
for its parameters in the second (`Revises`). The definitions in front of it are lowered in the same
way. So are those behind it, unless a variable of some function takes a name away from a global
variable or a function in one program and not in the other, and the definition takes that name from
outside (`revision_keeps_definitions`). There is one table of names for the whole module, so this
can happen (`hiding_changes_definition`).
-/

namespace CSubset.Lowering

open IR (Func)
open Node (SameShape)

variable {s s' t t' : State} {g g' : Node} {i : Nat}

/-- A definition is accepted in both states or in none, and its function is the same, if the states
agree about the names that it takes from outside. -/
theorem State.Beside.definition (h : s.Beside t) (hs : s.Steady) (hlike : SameShape g g')
    (hkind : g.kind = .definition) (hagrees : ∀ x ∈ g.free, s.Agrees t x)
    (hg : Gives (recording (visitItem g)) s () s')
    (hg' : Gives (recording (visitItem g')) t () t') :
    (s.rejection? g = none ↔ t.rejection? g' = none) ∧
      (s.rejection? g = none → ∃ name fn, g.defines? = some name ∧ fn.blocks ≠ [] ∧
        (s'.module.func? name = some fn ∧ name ∈ s'.defined) ∧
          (t'.module.func? name = some fn ∧ name ∈ t'.defined)) := by
  have htwins : s.Twins ⟨(· ∈ s.defined), True, fun _ _ => True⟩ (· ∈ g.free) t :=
    h.widen fun x hx => .inr (hagrees x hx)
  cases parallel_visitItem hlike (parallel_visit hlike _ fun _ hx => hx) htwins with
  | gives hx hy htwins' =>
    obtain ⟨-, rfl⟩ := hg.unique (gives_recording.mpr (.inl hx))
    obtain ⟨-, rfl⟩ := hg'.unique (gives_recording.mpr (.inl hy))
    refine ⟨iff_of_true (State.rejection?_of_gives hx) (State.rejection?_of_gives hy), fun _ => ?_⟩
    obtain ⟨name, fn, hname, hnew, hdefined, hfn, hblocks⟩ := accepted_definition hs hkind hx
    have hmem : name ∈ s'.defined := hdefined ▸ List.mem_cons_self
    exact ⟨name, fn, hname, hblocks, ⟨hfn, hmem⟩, (htwins'.others name hnew).trans hfn,
      htwins'.defined ▸ hmem⟩
  | @stops e e' _ _ hx hy he _ =>
    rcases e with r | fault <;> rcases e' with r' | fault'
    · have hr : s.rejection? g ≠ none := by simp [State.rejection?_of_stops hx]
      exact ⟨iff_of_false hr (by simp [State.rejection?_of_stops hy]), fun hnone => absurd hnone hr⟩
    · cases he
    · cases he
    · exact absurd (stops_recording.mpr ⟨fault, rfl, hx⟩) hg.not_stops

/-! ## Programs -/

/-- Member `k` is a definition of a function of one name and one type in both lists, and without it
the lists have members of one shape. -/
structure Revises (k : Nat) (items items' : List (Option Node)) : Prop where
  others : (items.eraseIdx k).map (Option.map Tree.shape) = (items'.eraseIdx k).map
    (Option.map Tree.shape)
  definition : ∃ n n', items[k]? = some (some n) ∧ items'[k]? = some (some n') ∧
    n.kind = .definition ∧ n'.kind = .definition ∧ functionType? n = functionType? n'

variable {k : Nat} {items items' : List (Option Node)}

theorem rel_of_map_shape
    (h : items.map (Option.map Tree.shape) = items'.map (Option.map Tree.shape)) :
    Option.Rel (Option.Rel SameShape) items[i]? items'[i]? := by
  have hshape : (items[i]?).map (Option.map Tree.shape) = (items'[i]?).map
      (Option.map Tree.shape) := by
    rw [← List.getElem?_map, h, List.getElem?_map]
  cases hc : items[i]? with
  | none =>
    rw [hc, Option.map_none, eq_comm, Option.map_eq_none_iff] at hshape
    rw [hshape]
    exact .none
  | some c =>
    rw [hc, Option.map_some, eq_comm, Option.map_eq_some_iff] at hshape
    obtain ⟨d, hd, hshape⟩ := hshape
    rw [hd]
    exact .some (Node.child_sameShape_iff.mp hshape.symm)

theorem Revises.like (h : Revises k items items') (hi : i ≠ k) :
    Option.Rel (Option.Rel SameShape) items[i]? items'[i]? := by
  rcases Nat.lt_or_gt_of_ne hi with hbefore | hbehind
  · have hrel := rel_of_map_shape (i := i) h.others
    rwa [List.getElem?_eraseIdx_of_lt hbefore, List.getElem?_eraseIdx_of_lt hbefore] at hrel
  · have hrel := rel_of_map_shape (i := i - 1) h.others
    have hle : k ≤ i - 1 := by omega
    rwa [List.getElem?_eraseIdx_of_ge hle, List.getElem?_eraseIdx_of_ge hle, Nat.sub_add_cancel
      (by omega)] at hrel

theorem Revises.matches (h : Revises k items items') :
    List.Forall₂ (Option.Rel Match) items items' := by
  refine forall₂_of_getElem? fun i => ?_
  by_cases hi : i = k
  · obtain ⟨n, n', hn, hn', hkind, hkind', htype⟩ := h.definition
    rw [hi, hn, hn']
    exact .some (.some (.versions hkind hkind' htype))
  · exact rel_imp (fun _ _ => rel_imp fun _ _ => .like) (h.like hi)

/-- The members in front of the definition that differs have the same shape. -/
theorem Revises.front (h : Revises k items items') (hi : i ≤ k) :
    List.Forall₂ (Option.Rel SameShape) (items.take i) (items'.take i) := by
  refine forall₂_of_getElem? fun j => ?_
  rw [List.getElem?_take, List.getElem?_take]
  split
  · exact h.like (by omega)
  · exact .none

/-- A list around one of its members. -/
theorem eq_around {c : Option Node} (h : items[i]? = some c) :
    items = items.take i ++ c :: items.drop (i + 1) := by
  obtain ⟨hi, hc⟩ := List.getElem?_eq_some_iff.mp h
  rw [← hc, ← List.drop_eq_getElem_cons hi, List.take_append_drop]

variable {sourceName : String}

/-- The states in front of a member and behind it, the latter with what is kept to the end. -/
theorem gives_visitTopLevel_at (h : Gives (visitTopLevel items) (State.start sourceName) () s')
    (hg : items[i]? = some (some g)) :
    ∃ t, Gives (visitTopLevel (items.take i)) (State.start sourceName) ()
      ((State.start sourceName).behind (items.take i)) ∧
      Gives (recording (visitItem g)) ((State.start sourceName).behind (items.take i)) () t ∧
        t.Later s' := by
  rw [eq_around hg] at h
  obtain ⟨t, hfront, hmember, hrest⟩ := gives_visitTopLevel_split h
  have hsteady := (steady_of_gives_visitTopLevel (State.sound_start sourceName).toSteady hfront).1
  have ht := ((gives_member hsteady.frame hsteady.scope hmember).steady hsteady).1
  exact ⟨t, hfront, hmember, (steady_of_gives_visitTopLevel ht hrest).2⟩

/-- In front of a member other than the one that differs, the states agree about each name that is
hidden in both programs or in none. No name is hidden in one only before the definition that
differs. -/
theorem Revises.beside (h : Revises k items items') (hi : i ≠ k)
    (hs : Gives (visitTopLevel (items.take i)) (State.start sourceName) () s)
    (ht : Gives (visitTopLevel (items'.take i)) (State.start sourceName) () t) :
    s.Beside t ∧ ∀ x, (k < i → s.hidden x = t.hidden x) → s.Agrees t x := by
  have hstart : (State.start sourceName).Steady := (State.sound_start sourceName).toSteady
  have htwins : (State.start sourceName).Twins ⟨fun _ => False, False, fun _ _ => True⟩
      (fun _ => True) (State.start sourceName) :=
    hstart.twins _ ⟨rfl, rfl⟩
  rcases Nat.lt_or_gt_of_ne hi with hbefore | hbehind
  · cases parallel_visitTopLevel (h.front (Nat.le_of_lt hbefore)) (fun _ _ => trivial) htwins with
    | gives hx hy htwins =>
      obtain ⟨-, rfl⟩ := hs.unique hx
      obtain ⟨-, rfl⟩ := ht.unique hy
      exact ⟨htwins.beside, fun x _ => htwins.symbols x (.inl trivial)⟩
    | stops hx _ _ _ => exact absurd hx hs.not_stops
  · have hbeside : s.Beside t :=
      .members (List.forall₂_take i h.matches) htwins.beside hstart hstart hs ht
    have hsteady := (steady_of_gives_visitTopLevel hstart hs).1
    have hsteady' := (steady_of_gives_visitTopLevel hstart ht).1
    have hnamed : s.Named := State.Reached.named (.call .start hs)
    have hnamed' : t.Named := State.Reached.named (.call .start ht)
    exact ⟨hbeside, fun x hx => hbeside.agrees hsteady hsteady' hnamed hnamed' (hx hbehind)⟩

/-- Lowering a text that can be read ends, and it lowers the members one by one. -/
theorem build_of_parse {generation : UInt32} {path : String} {text : List Char} {file : File}
    {stamp : Stamp} (sourceName : String) (hparse : File.parse generation path text = .ok file)
    (hroot : file.root = some (.seq stamp .program items)) :
    ∃ out, build sourceName file.root = .ok out ∧
      Gives (visitTopLevel items) (State.start sourceName) () out.state := by
  obtain ⟨_, _, hroot', hitems⟩ := File.members_of_parse hparse
  rw [hroot] at hroot' ⊢
  cases hroot'
  exact build_of_whole sourceName (Node.whole_of_members hitems)

/-- In two programs that differ in the body and the parameter names of one definition, every other
definition is accepted in both or in none and gets the same body, unless it takes a name from
outside that is hidden in one program only. -/
theorem revision_keeps_definitions (sourceName : String) {generation generation' : UInt32}
    {path path' : String} {text text' : List Char} {file file' : File} {stamp stamp' : Stamp}
    (hparse : File.parse generation path text = .ok file)
    (hparse' : File.parse generation' path' text' = .ok file')
    (hroot : file.root = some (.seq stamp .program items))
    (hroot' : file'.root = some (.seq stamp' .program items')) (hrevises : Revises k items items') :
    ∃ out out', build sourceName file.root = .ok out ∧ build sourceName file'.root = .ok out' ∧
      ∀ i g g', i ≠ k → items[i]? = some (some g) → items'[i]? = some (some g') →
        g.kind = .definition →
        (k < i → ∀ x ∈ g.free, ((State.start sourceName).behind (items.take i)).hidden x =
          ((State.start sourceName).behind (items'.take i)).hidden x) →
        (((State.start sourceName).behind (items.take i)).rejection? g = none ↔
          ((State.start sourceName).behind (items'.take i)).rejection? g' = none) ∧
        (((State.start sourceName).behind (items.take i)).rejection? g = none →
          ∃ name fn, g.defines? = some name ∧ fn.blocks ≠ [] ∧
            out.state.module.func? name = some fn ∧
            out'.state.module.func? name = some fn) := by
  obtain ⟨out, hbuild, hitems⟩ := build_of_parse sourceName hparse hroot
  obtain ⟨out', hbuild', hitems'⟩ := build_of_parse sourceName hparse' hroot'
  refine ⟨out, out', hbuild, hbuild', fun i g g' hi hg hg' hkind hhidden => ?_⟩
  obtain ⟨t, hfront, hmember, hlater⟩ := gives_visitTopLevel_at hitems hg
  obtain ⟨t', hfront', hmember', hlater'⟩ := gives_visitTopLevel_at hitems' hg'
  have hlike : SameShape g g' := by
    obtain ⟨_, hd, hlikes⟩ := eq_some_of_rel (hrevises.like hi) hg
    obtain ⟨_, heq, hlike⟩ := eq_some_of_rel hlikes rfl
    obtain rfl := Option.mem_unique heq (Option.some.inj (hd.symm.trans hg'))
    exact hlike
  have hsteady := (steady_of_gives_visitTopLevel (State.sound_start sourceName).toSteady hfront).1
  obtain ⟨hbeside, hagrees⟩ := hrevises.beside hi hfront hfront'
  obtain ⟨hverdict, hbody⟩ := hbeside.definition hsteady hlike hkind
    (fun x hx => hagrees x fun hk => hhidden hk x hx) hmember hmember'
  refine ⟨hverdict, fun haccepted => ?_⟩
  obtain ⟨name, fn, hname, hblocks, ⟨hfn, hdef⟩, hfn', hdef'⟩ := hbody haccepted
  -- a function that has been defined is kept as it is
  obtain ⟨kept, hkept, -, -, heq⟩ := hlater.funcs name fn hfn
  obtain ⟨kept', hkept', -, -, heq'⟩ := hlater'.funcs name fn hfn'
  exact ⟨name, fn, hname, hblocks, heq hdef ▸ hkept, heq' hdef' ▸ hkept'⟩

/-! ## Two revisions -/

/-- The members of a text. -/
def readItems (text : List Char) : List (Option Node) :=
  match File.parse 0 "a.c" text with
  | .ok ⟨_, _, some (.seq _ .program items)⟩ => items
  | _ => []

theorem root_eq_readItems (text : List Char) (h : readItems text ≠ []) :
    ∃ file stamp, File.parse 0 "a.c" text = .ok file ∧
      file.root = some (.seq stamp .program (readItems text)) := by
  unfold readItems at h ⊢
  split at h
  next hparse => exact ⟨_, _, hparse, rfl⟩
  next => exact absurd rfl h

/-- Both programs have three members, the last two of them nodes, and these pass a check. -/
def bothPass (check : Option Node → Node → Node → Option Node → Node → Node → Bool) :
    (items items' : List (Option Node)) → Bool
  | [v, some f, some g], [v', some f', some g'] => check v f g v' f' g'
  | _, _ => false

theorem exists_of_bothPass {check : Option Node → Node → Node → Option Node → Node → Node → Bool}
    {items items' : List (Option Node)} (h : bothPass check items items' = true) :
    ∃ v f g v' f' g', items = [v, some f, some g] ∧ items' = [v', some f', some g'] ∧
      check v f g v' f' g' = true := by
  unfold bothPass at h
  split at h
  next v f g v' f' g' => exact ⟨v, f, g, v', f', g', rfl, rfl, h⟩
  next => cases h

/-- The member can be lowered in this state. -/
def State.accepts (s : State) (n : Node) : Bool :=
  match (visitItem n s : Except Stop Unit × State) with
  | (.ok _, _) => true
  | (.error _, _) => false

theorem State.rejection?_of_accepts (h : s.accepts g = true) : s.rejection? g = none := by
  unfold State.accepts at h
  split at h
  next hrun => exact State.rejection?_of_gives hrun
  next => cases h

/-- The first function copies its argument into a variable that hides the global one. The second
declares a variable of that name in one branch and uses it in both. -/
def copying : List Char :=
  ("int x; int f(int a) { int x; x = a; return x; } " ++
    "int g(int b) { if (b) { int x; x = b; return f(x); } else { return x; } }").toList

/-- The same without the copy. -/
def passing : List Char :=
  ("int x; int f(int b) { return b; } " ++
    "int g(int b) { if (b) { int x; x = b; return f(x); } else { return x; } }").toList

theorem passing_keeps_caller :
    ∃ file file' stamp stamp' items items' out out' fn,
    File.parse 0 "a.c" copying = .ok file ∧ File.parse 0 "a.c" passing = .ok file' ∧
    file.root = some (.seq stamp .program items) ∧ file'.root = some (.seq stamp' .program items') ∧
    Revises 1 items items' ∧ build "a.c" file.root = .ok out ∧ build "a.c" file'.root = .ok out' ∧
    fn.blocks ≠ [] ∧ out.state.module.func? "g" = some fn ∧
      out'.state.module.func? "g" = some fn := by
  obtain ⟨hothers, hcheck⟩ : ((readItems copying).eraseIdx 1).map (Option.map Tree.shape) =
      ((readItems passing).eraseIdx 1).map (Option.map Tree.shape) ∧
      bothPass (fun v f g v' f' _ => f.kind = .definition && f'.kind = .definition && functionType?
      f = functionType? f' &&
      (g.kind = .definition && g.defines? = some "g" &&
      ((State.start "a.c").behind [v, some f]).accepts g && g.free.all fun x =>
      ((State.start "a.c").behind [v, some f]).hidden x =
      ((State.start "a.c").behind [v', some f']).hidden x)) (readItems copying)
      (readItems passing) = true := by
    decide +kernel
  obtain ⟨v, f, g, v', f', g', hitems, hitems', hcheck⟩ := exists_of_bothPass hcheck
  obtain ⟨file, stamp, hparse, hroot⟩ := root_eq_readItems copying (by simp [hitems])
  obtain ⟨file', stamp', hparse', hroot'⟩ := root_eq_readItems passing (by simp [hitems'])
  simp only [Bool.and_eq_true, decide_eq_true_eq, List.all_eq_true] at hcheck
  obtain ⟨⟨⟨hf, hf'⟩, htype⟩, ⟨⟨hkind, hname⟩, haccepts⟩, hhidden⟩ := hcheck
  rw [hitems, hitems'] at hothers
  rw [hitems] at hroot
  rw [hitems'] at hroot'
  have hrevises : Revises 1 [v, some f, some g] [v', some f', some g'] :=
    ⟨hothers, f, f', rfl, rfl, hf, hf', htype⟩
  obtain ⟨out, out', hbuild, hbuild', hkept⟩ :=
    revision_keeps_definitions "a.c" hparse hparse' hroot hroot' hrevises
  obtain ⟨-, hsame⟩ := hkept 2 g g' (by decide) rfl rfl hkind fun _ => hhidden
  obtain ⟨name, fn, hdefines, hblocks, hfn, hfn'⟩ := hsame (State.rejection?_of_accepts haccepts)
  obtain rfl := Option.mem_unique hname hdefines
  exact ⟨file, file', stamp, stamp', _, _, out, out', fn, hparse, hparse', hroot, hroot', hrevises,
    hbuild, hbuild', hblocks, hfn, hfn'⟩

/-- The first function has a variable that hides the global one, which the second function uses. -/
def masking : List Char :=
  "int x; int f(void) { int x; return 0; } int g(void) { return x; }".toList

/-- The same without the variable. -/
def unmasked : List Char := "int x; int f(void) { return 0; } int g(void) { return x; }".toList

/-- Whether a definition is accepted can depend on the variables of another one. -/
theorem hiding_changes_definition :
    ∃ file file' stamp stamp' items items' g g',
    File.parse 0 "a.c" masking = .ok file ∧ File.parse 0 "a.c" unmasked = .ok file' ∧
    file.root = some (.seq stamp .program items) ∧ file'.root = some (.seq stamp' .program items') ∧
    Revises 1 items items' ∧ items[2]? = some (some g) ∧ items'[2]? = some (some g') ∧
      g.kind = .definition ∧
    ((State.start "a.c").behind (items.take 2)).rejection? g ≠ none ∧
    ((State.start "a.c").behind (items'.take 2)).rejection? g' = none := by
  obtain ⟨hothers, hcheck⟩ : ((readItems masking).eraseIdx 1).map (Option.map Tree.shape) =
      ((readItems unmasked).eraseIdx 1).map (Option.map Tree.shape) ∧
      bothPass (fun v f g v' f' g' => f.kind = .definition && f'.kind = .definition && functionType?
      f = functionType? f' &&
      (g.kind = .definition && (((State.start "a.c").behind [v, some f]).rejection? g).isSome &&
      ((State.start "a.c").behind [v', some f']).accepts g')) (readItems masking)
      (readItems unmasked) = true := by
    decide +kernel
  obtain ⟨v, f, g, v', f', g', hitems, hitems', hcheck⟩ := exists_of_bothPass hcheck
  obtain ⟨file, stamp, hparse, hroot⟩ := root_eq_readItems masking (by simp [hitems])
  obtain ⟨file', stamp', hparse', hroot'⟩ := root_eq_readItems unmasked (by simp [hitems'])
  simp only [Bool.and_eq_true, decide_eq_true_eq] at hcheck
  obtain ⟨⟨⟨hf, hf'⟩, htype⟩, ⟨hkind, hrejected⟩, haccepts⟩ := hcheck
  rw [hitems, hitems'] at hothers
  rw [hitems] at hroot
  rw [hitems'] at hroot'
  refine ⟨file, file', stamp, stamp', _, _, g, g', hparse, hparse', hroot, hroot',
    ⟨hothers, f, f', rfl, rfl, hf, hf', htype⟩, rfl, rfl, hkind, ?_,
    State.rejection?_of_accepts haccepts⟩
  exact Option.isSome_iff_ne_none.mp hrejected

end CSubset.Lowering
