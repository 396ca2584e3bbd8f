import CSubset.Command.Files
import Mathlib.Data.List.Basic

/-!
# Paths and file trees

A path leads to a location. Where there are no links, cleaning a path does not change where it
leads, so a file in a directory is where the directory leads and then its name
(`Location.ofPath_within`).

No request takes away or replaces what is in a file tree (`FileTree.Extends`), so a path that leads
somewhere goes on to lead there, links or not. A file is its number and not its location: what
requests leave of a file tree is said by `FileTree.Spares`. But for some files, all hold what they
held, and what is new is a directory.
-/

namespace CSubset.Command

/-! ## Pieces of paths -/

namespace Path

variable {piece path : String} {before ps : List String} {cs : List Char} {rooted : Bool}

theorem splitSlashes_ne_nil (cs : List Char) : splitSlashes cs ≠ [] := by
  cases cs with
  | nil => nofun
  | cons c cs =>
    rw [splitSlashes]
    split
    · nofun
    · split <;> nofun

/-- A slash ends a piece. -/
theorem splitSlashes_append (as bs : List Char) :
    splitSlashes (as ++ '/' :: bs) = splitSlashes as ++ splitSlashes bs := by
  induction as with
  | nil => rfl
  | cons a as ih =>
    rw [List.cons_append, splitSlashes, splitSlashes, ih]
    by_cases ha : a = '/'
    · rw [if_pos ha, if_pos ha, List.cons_append]
    · rw [if_neg ha, if_neg ha]
      cases h : splitSlashes as with
      | nil => exact absurd h (splitSlashes_ne_nil as)
      | cons piece pieces => rfl

theorem splitSlashes_of_not_mem (h : '/' ∉ cs) : splitSlashes cs = [cs] := by
  induction cs with
  | nil => rfl
  | cons c cs ih =>
    rw [List.mem_cons, not_or] at h
    rw [splitSlashes, if_neg (Ne.symm h.1), ih h.2]

theorem not_mem_of_mem_splitSlashes {piece : List Char} (h : piece ∈ splitSlashes cs) :
    '/' ∉ piece := by
  induction cs generalizing piece with
  | nil =>
    rw [List.mem_singleton.mp h]
    exact List.not_mem_nil
  | cons c cs ih =>
    rw [splitSlashes] at h
    split at h
    · rcases List.mem_cons.mp h with rfl | h
      · exact List.not_mem_nil
      · exact ih h
    · next hc =>
      split at h
      · next hnil => exact absurd hnil (splitSlashes_ne_nil cs)
      · next first rest hcons =>
        rw [hcons] at ih
        rcases List.mem_cons.mp h with rfl | h
        · exact List.not_mem_cons_of_ne_of_not_mem (Ne.symm hc) (ih List.mem_cons_self)
        · exact ih (List.mem_cons_of_mem _ h)

theorem pieces_append_slash (a b : String) : pieces (a ++ "/" ++ b) = pieces a ++ pieces b := by
  have hchars : (a ++ "/" ++ b).toList = a.toList ++ '/' :: b.toList := by simp
  rw [pieces, hchars, splitSlashes_append, List.map_append, pieces, pieces]

theorem pieces_of_not_mem {a : String} (h : '/' ∉ a.toList) : pieces a = [a] := by
  rw [pieces, splitSlashes_of_not_mem h, List.map_singleton, String.ofList_toList]

theorem not_mem_of_mem_pieces (h : piece ∈ pieces path) : '/' ∉ piece.toList := by
  obtain ⟨cs, hcs, rfl⟩ := List.mem_map.mp h
  rw [String.toList_ofList]
  exact not_mem_of_mem_splitSlashes hcs

/-- Pieces that are joined come apart again. -/
theorem pieces_join (hne : ps ≠ []) (h : ∀ p ∈ ps, '/' ∉ p.toList) : pieces (join ps) = ps := by
  induction ps with
  | nil => exact absurd rfl hne
  | cons p ps ih =>
    obtain ⟨hp, hps⟩ := List.forall_mem_cons.mp h
    cases ps with
    | nil => rw [join, String.intercalate_singleton, pieces_of_not_mem hp]
    | cons q ps =>
      rw [join, String.intercalate_cons_cons, pieces_append_slash, pieces_of_not_mem hp]
      exact congrArg (p :: ·) (ih nofun hps)

/-- A path from the root starts with an empty piece. -/
theorem pieces_of_isRooted (h : isRooted path = true) : ∃ rest, pieces path = "" :: rest := by
  have hhead : path.toList.head? = some '/' := of_decide_eq_true h
  obtain ⟨cs, hcs⟩ := List.head?_eq_some_iff.mp hhead
  exact ⟨_, by rw [pieces, hcs, splitSlashes, if_pos rfl, List.map_cons]⟩

/-! ## Cleaning -/

/-- A piece that cleaning can leave. -/
structure IsKept (piece : String) : Prop where
  ne_empty : piece ≠ ""
  ne_dot : piece ≠ "."
  no_slash : '/' ∉ piece.toList

/-- A piece that names something in a directory. -/
structure IsName (piece : String) : Prop extends IsKept piece where
  ne_up : piece ≠ ".."

theorem push_of_isName (h : IsName piece) (rooted : Bool) (before : List String) :
    push rooted before piece = piece :: before := by
  unfold push
  rw [if_neg (not_or.mpr ⟨h.ne_empty, h.ne_dot⟩), if_neg h.ne_up]

/-- Cleaning keeps neither empty pieces nor dots. -/
theorem isKept_of_mem_push (hbefore : ∀ p ∈ before, IsKept p)
    (hpiece : '/' ∉ piece.toList) : ∀ p ∈ push rooted before piece, IsKept p := by
  have hup : IsKept ".." := ⟨by decide, by decide, by decide⟩
  unfold push
  split
  · exact hbefore
  next hne =>
  rw [not_or] at hne
  split
  · cases before with
    | nil => cases rooted <;> simp [hup]
    | cons last earlier =>
      dsimp only
      split
      · exact List.forall_mem_cons.mpr ⟨hup, hbefore⟩
      · exact (List.forall_mem_cons.mp hbefore).2
  · exact List.forall_mem_cons.mpr ⟨⟨hne.1, hne.2, hpiece⟩, hbefore⟩

/-- The pieces that cleaning leaves, the last one first. -/
def kept (path : String) : List String := (pieces path).foldl (push (isRooted path)) []

theorem isKept_of_mem_foldl (hps : ∀ p ∈ ps, '/' ∉ p.toList)
    (hbefore : ∀ p ∈ before, IsKept p) : ∀ p ∈ ps.foldl (push rooted) before, IsKept p := by
  induction ps generalizing before with
  | nil => exact hbefore
  | cons p ps ih =>
    obtain ⟨hp, hps⟩ := List.forall_mem_cons.mp hps
    exact ih hps (isKept_of_mem_push hbefore hp)

theorem isKept_of_mem_kept (path : String) : ∀ p ∈ kept path, IsKept p :=
  isKept_of_mem_foldl (fun _ => not_mem_of_mem_pieces) nofun

section Within

variable {dir name : String}

theorem isRooted_append_slash (hdir : dir ≠ "") : isRooted (dir ++ "/" ++ name) = isRooted dir := by
  have hchars : (dir ++ "/" ++ name).toList = dir.toList ++ '/' :: name.toList := by simp
  have hne : dir.toList ≠ [] := fun h => hdir (String.toList_eq_nil_iff.mp h)
  rw [isRooted, hchars, List.head?_append_of_ne_nil _ hne, isRooted]

theorem kept_append_slash (hdir : dir ≠ "") (hname : IsName name) :
    kept (dir ++ "/" ++ name) = name :: kept dir := by
  rw [kept, isRooted_append_slash hdir, pieces_append_slash, pieces_of_not_mem hname.no_slash,
    List.foldl_append]
  exact push_of_isName hname _ _

/-- A cleaned path that ends with a name. -/
theorem within_eq (hdir : dir ≠ "") (hname : IsName name) :
    within dir name =
      if isRooted dir then "" ++ "/" ++ join (name :: kept dir).reverse
        else join (name :: kept dir).reverse := by
  have hempty : dir.isEmpty = false := by simpa using hdir
  have hclean : clean (dir ++ "/" ++ name) = if isRooted (dir ++ "/" ++ name) then
      "/" ++ join (kept (dir ++ "/" ++ name)).reverse
    else if (kept (dir ++ "/" ++ name)).reverse.isEmpty then "."
        else join (kept (dir ++ "/" ++ name)).reverse :=
      rfl
  have hlast : (name :: kept dir).reverse.isEmpty = false := by simp
  simp only [within, hempty, Bool.false_eq_true, if_false, hclean, kept_append_slash hdir hname,
    isRooted_append_slash hdir, hlast, String.empty_append]

/-- A name within a directory is one piece more. -/
theorem pieces_within (hdir : dir ≠ "") (hname : IsName name) :
    pieces (within dir name) = (if isRooted dir then [""] else []) ++
      (kept dir).reverse ++ [name] := by
  have hjoin : pieces (join (name :: kept dir).reverse) = (kept dir).reverse ++ [name] := by
    rw [pieces_join, List.reverse_cons]
    · simp
    · intro p hp
      rcases List.mem_cons.mp (List.mem_reverse.mp hp) with rfl | hp
      · exact hname.no_slash
      · exact (isKept_of_mem_kept dir p hp).no_slash
  rw [within_eq hdir hname]
  split
  · rw [pieces_append_slash, hjoin, List.append_assoc]
    rfl
  · exact hjoin

theorem isRooted_within (hdir : dir ≠ "") (hname : IsName name) :
    isRooted (within dir name) = isRooted dir := by
  cases hrooted : isRooted dir with
  | true =>
    rw [within_eq hdir hname, hrooted, if_pos rfl]
    simp [isRooted]
  | false =>
    -- otherwise the first piece would be empty
    by_contra hwithin
    obtain ⟨rest, hrest⟩ := pieces_of_isRooted (Bool.not_eq_false _ ▸ hwithin)
    rw [pieces_within hdir hname, hrooted] at hrest
    have hmem : "" ∈ (kept dir).reverse ++ [name] := by
      rw [show (kept dir).reverse ++ [name] = "" :: rest from hrest]
      exact List.mem_cons_self
    rcases List.mem_append.mp hmem with hmem | hmem
    · exact (isKept_of_mem_kept dir "" (List.mem_reverse.mp hmem)).ne_empty rfl
    · exact hname.ne_empty (List.mem_singleton.mp hmem).symm

end Within

end Path

/-! ## Locations -/

namespace Location

open CSubset.Command.Path

variable {piece : String}

theorem step_of_isName (h : IsName piece) (dir : Location) :
    dir.step piece = ⟨dir.origin, dir.pieces ++ [piece]⟩ := by
  rw [step, if_neg (not_or.mpr ⟨h.ne_empty, h.ne_dot⟩), if_neg h.ne_up]

theorem parent_step (h : IsName piece) (dir : Location) : (dir.step piece).parent = dir := by
  rw [step_of_isName h, parent]
  split
  · next heq => simp at heq
  · next heq => simp at heq
  · simp

/-- One more piece of a path leads where the cleaned pieces lead. -/
theorem foldl_step_push (path : String) {before : List String} (hbefore : ∀ p ∈ before, IsKept p)
    (piece : String) :
    (push (isRooted path) before piece).reverse.foldl step (start path) =
      (before.reverse.foldl step (start path)).step piece := by
  unfold push
  split
  · next hpiece => rw [step, if_pos hpiece]
  next hne =>
  split
  · next hup =>
    subst hup
    cases before with
    | nil =>
      cases hrooted : isRooted path with
      | true => simp [start, hrooted, step, parent]
      | false => rfl
    | cons last earlier =>
      dsimp only
      split
      · rw [List.reverse_cons, List.foldl_append]
        rfl
      · next hlast =>
        have hname : IsName last := { hbefore last List.mem_cons_self with ne_up := hlast }
        rw [List.reverse_cons, List.foldl_append]
        exact (parent_step hname _).symm
  · rw [List.reverse_cons, List.foldl_append]
    rfl

theorem foldl_step_kept (path : String) :
    (kept path).reverse.foldl step (start path) = ofPath path := by
  have hall : ∀ (ps before : List String), (∀ p ∈ ps, '/' ∉ p.toList) → (∀ p ∈ before, IsKept p) →
      (ps.foldl (push (isRooted path)) before).reverse.foldl step (start path) =
        ps.foldl step (before.reverse.foldl step (start path)) := by
    intro ps
    induction ps with
    | nil => exact fun _ _ _ => rfl
    | cons p ps ih =>
      intro before hps hbefore
      obtain ⟨hp, hps⟩ := List.forall_mem_cons.mp hps
      rw [List.foldl_cons, ih _ hps (isKept_of_mem_push hbefore hp), foldl_step_push path hbefore,
        List.foldl_cons]
  exact hall (Path.pieces path) [] (fun _ => not_mem_of_mem_pieces) nofun

/-- A name in a directory is where the directory leads, and then the name. -/
theorem ofPath_within {dir name : String} (hdir : dir ≠ "") (hname : IsName name) :
    ofPath (within dir name) = (ofPath dir).step name := by
  have hstart : start (within dir name) = start dir := by
    rw [start, start, isRooted_within hdir hname]
  have hlead : (if isRooted dir then [""] else []).foldl step (start dir) = start dir := by
    split <;> rfl
  rw [ofPath, hstart, pieces_within hdir hname, List.foldl_append, List.foldl_append, hlead,
    foldl_step_kept]
  rfl

example : ofPath (within "x/./y/../../../z//" "m") = ⟨.above 1, ["z", "m"]⟩ := by decide +kernel

end Location

/-! ## Entries -/

namespace FileTree

variable {t t' t'' : FileTree} {l l' here : Location} {e : Entry} {n : Nat} {path text : String}
  {follow : Bool} {ps : List String} {jump jump' : Location → List String →
    Except PathCause Location}

/-- An entry is put in one place. -/
theorem held?_put (h : l.pieces ≠ []) (l' : Location) :
    (t.put l e).held? l' = if l' = l then some e else t.held? l' := by
  unfold held? put
  split
  · next hnil =>
    rw [if_neg]
    rintro rfl
    exact h (List.isEmpty_iff.mp hnil)
  · rw [List.lookup_cons]
    by_cases hl : l' = l
    · simp [hl]
    · rw [if_neg hl, beq_false_of_ne hl]

theorem pieces_ne_nil (h : t.held? l = none) : l.pieces ≠ [] := by
  intro hnil
  simp [held?, hnil] at h

@[simp] theorem held?_fill (bytes : List UInt8) (l : Location) :
    (t.fill n bytes).held? l = t.held? l := rfl

/-- A fresh number is above those of all files. -/
theorem lt_freshNumber (h : t.held? l = some (.file n)) : n < t.freshNumber := by
  unfold held? at h
  split at h
  · cases h
  · obtain ⟨before, after, heq, -⟩ := List.lookup_eq_some_iff.mp h
    have hmem : (l, Entry.file n) ∈ t.entries := heq ▸ List.mem_append_right _ List.mem_cons_self
    unfold freshNumber
    generalize t.entries = es at hmem
    induction es with
    | nil => cases hmem
    | cons first es ih =>
      rw [List.foldr_cons]
      rcases List.mem_cons.mp hmem with rfl | hmem
      · exact Nat.lt_of_lt_of_le (Nat.lt_succ_self n) (Nat.le_max_left ..)
      · have hrest := ih hmem
        obtain ⟨_, _ | _ | _⟩ := first
        · exact Nat.lt_of_lt_of_le hrest (Nat.le_max_right ..)
        · exact hrest
        · exact hrest

/-- All that is in `t` is in `t'` as well, the same may not be done, and no link is new. -/
structure Extends (t t' : FileTree) : Prop where
  entries : ∀ l e, t.held? l = some e → t'.held? l = some e
  links : ∀ l target, t'.held? l = some (.link target) → t.held? l = some (.link target)
  denied : t'.denied = t.denied

namespace Extends

theorem refl : t.Extends t := ⟨fun _ _ h => h, fun _ _ h => h, rfl⟩

theorem trans (h : t.Extends t') (h' : t'.Extends t'') : t.Extends t'' where
  entries l e he := h'.entries l e (h.entries l e he)
  links l target he := h.links l target (h'.links l target he)
  denied := h'.denied.trans h.denied

theorem put (hl : t.held? l = none) (he : ∀ target, e ≠ .link target) : t.Extends (t.put l e) where
  entries l' e' h := by
    rw [held?_put (pieces_ne_nil hl), if_neg]
    · exact h
    · rintro rfl
      cases hl.symm.trans h
  links l' target h := by
    rw [held?_put (pieces_ne_nil hl)] at h
    split at h
    · exact absurd (Option.some.inj h) (he target)
    · exact h
  denied := rfl

theorem enter (h : t.Extends t') (hok : t.enter here = .ok ()) : t'.enter here = .ok () := by
  unfold FileTree.enter at hok ⊢
  cases hentry : t.held? here with
  | none =>
    rw [hentry] at hok
    cases hok
  | some e =>
    rw [hentry] at hok
    rw [h.entries here e hentry, h.denied]
    exact hok

end Extends

/-! ## Following paths

A longer tree leads wherever the shorter one did. -/

/-- A walk ends at the last piece, it follows a link, or it goes on. -/
theorem walk_cons {p : String} :
    t.walk follow jump here (p :: ps) = .ok l ↔ t.enter here = .ok () ∧
      ((t.held? (here.step p) = none ∧ ps = [] ∧ here.step p = l) ∨
        (∃ target, t.held? (here.step p) = some (.link target) ∧
          if ps.isEmpty && !follow then here.step p = l
          else jump (if Path.isRooted target then .start target else here)
            (Path.pieces target ++ ps) =
            .ok l) ∨
        ∃ e, t.held? (here.step p) = some e ∧ (∀ target, e ≠ .link target) ∧
          t.walk follow jump (here.step p) ps = .ok l) := by
  rw [walk]
  cases t.enter here with
  | error cause => simp
  | ok _ =>
    rcases hentry : t.held? (here.step p) with _ | (n | _ | target)
    · cases ps <;> simp [hentry]
    · simp [hentry]
    · simp [hentry]
    · cases hlast : ps.isEmpty && !follow <;> simp [hentry]

/-- What is added to a file tree is not in the way of a walk that got through without it: at most it
is now at the end of it. -/
theorem Extends.walk (h : t.Extends t')
    (hjump : ∀ here ps, jump here ps = .ok l → jump' here ps = .ok l)
    (hok : t.walk follow jump here ps = .ok l) : t'.walk follow jump' here ps = .ok l := by
  induction ps generalizing here with
  | nil => exact hok
  | cons p ps ih =>
    obtain ⟨henter, hcases⟩ := walk_cons.mp hok
    refine walk_cons.mpr ⟨h.enter henter, ?_⟩
    obtain ⟨hnone, rfl, rfl⟩ | ⟨target, hlink, hnext⟩ | ⟨e, hentry, hother, hnext⟩ := hcases
    · cases hentry : t'.held? (here.step p) with
      | none => exact .inl ⟨rfl, rfl, rfl⟩
      | some e =>
        refine .inr (.inr ⟨e, rfl, ?_, rfl⟩)
        rintro target rfl
        cases hnone.symm.trans (h.links _ target hentry)
    · refine .inr (.inl ⟨target, h.entries _ _ hlink, ?_⟩)
      split at hnext
      · next hlast => rwa [if_pos hlast]
      · next hlast =>
        rw [if_neg hlast]
        exact hjump _ _ hnext
    · exact .inr (.inr ⟨e, h.entries _ _ hentry, hother, ih hnext⟩)

theorem Extends.locate (h : t.Extends t') {links : Nat}
    (hok : t.locate follow links here ps = .ok l) : t'.locate follow links here ps = .ok l := by
  induction links generalizing here ps with
  | zero => exact h.walk (fun _ _ hjump => hjump) hok
  | succ links ih => exact h.walk (fun _ _ => ih) hok

theorem Extends.find (h : t.Extends t') (hok : t.find follow path ps = .ok l) :
    t'.find follow path ps = .ok l := by
  unfold FileTree.find at hok ⊢
  split at hok
  · cases hok
  · next hpath =>
    rw [if_neg hpath]
    exact h.locate hok

/-- The number of the file that a path leads to. -/
def file? (t : FileTree) (path : String) : Option Nat :=
  match t.look path true with
  | .ok (.file number) => some number
  | _ => none

theorem file?_eq_some :
    t.file? path = some n ↔
      ∃ l, t.find true path (Path.pieces path) = .ok l ∧ t.held? l = some (.file n) := by
  unfold file? look
  cases t.find true path (Path.pieces path) with
  | error cause => simp
  | ok l =>
    rcases hentry : t.held? l with _ | (number | _ | target) <;> simp [hentry]

theorem Extends.file? (h : t.Extends t') (hfile : t.file? path = some n) :
    t'.file? path = some n := by
  obtain ⟨l, hfind, hentry⟩ := file?_eq_some.mp hfile
  exact file?_eq_some.mpr ⟨l, h.find hfind, h.entries _ _ hentry⟩

/-! ### Trees without links -/

/-- No symbolic link is there, and each file is at one location only. -/
structure Unlinked (t : FileTree) : Prop where
  links : ∀ l target, t.held? l ≠ some (.link target)
  single : ∀ l l' n, t.held? l = some (.file n) → t.held? l' = some (.file n) → l = l'

/-- Without links a path leads where its pieces say. -/
theorem Unlinked.walk (h : t.Unlinked) (hok : t.walk follow jump here ps = .ok l) :
    l = ps.foldl Location.step here := by
  induction ps generalizing here with
  | nil => exact (Except.ok.inj hok).symm
  | cons p ps ih =>
    obtain ⟨-, ⟨-, rfl, rfl⟩ | ⟨target, hlink, -⟩ | ⟨e, -, -, hnext⟩⟩ := walk_cons.mp hok
    · rfl
    · exact absurd hlink (h.links _ target)
    · exact ih hnext

/-- Without links a path leads where its pieces say. -/
theorem Unlinked.find (h : t.Unlinked) (hok : t.find follow path (Path.pieces path) = .ok l) :
    l = .ofPath path := by
  unfold FileTree.find at hok
  split at hok
  · cases hok
  · exact h.walk hok

/-! ## Requests

Whatever a request does, it keeps the entries that are there, and what it adds are directories or
its own files. -/

/-- But for the files of `own`, all files hold what they held, and what is new is a directory. -/
structure Spares (own : Nat → Prop) (t t' : FileTree) : Prop extends Extends t t' where
  added : ∀ l e, t.held? l = none → t'.held? l = some e → e = .directory ∨
    ∃ n, e = .file n ∧ own n
  bytes : ∀ n, ¬own n → t'.bytes n = t.bytes n

section Spares

variable {own own' : Nat → Prop}

namespace Spares

theorem refl : Spares own t t where
  toExtends := .refl
  added _ _ hnone hsome := by cases hnone.symm.trans hsome
  bytes _ _ := rfl

theorem mono (h : Spares own t t') (hown : ∀ n, own n → own' n) : Spares own' t t' where
  toExtends := h.toExtends
  added l e hnone hsome :=
    (h.added l e hnone hsome).imp_right fun ⟨n, hn, hmem⟩ => ⟨n, hn, hown n hmem⟩
  bytes n hn := h.bytes n fun hmem => hn (hown n hmem)

theorem trans (h : Spares own t t') (h' : Spares own t' t'') : Spares own t t'' where
  toExtends := h.toExtends.trans h'.toExtends
  added l e hnone hsome := by
    cases hmid : t'.held? l with
    | none => exact h'.added l e hmid hsome
    | some e' =>
      obtain rfl := Option.mem_unique (h'.entries l e' hmid) hsome
      exact h.added l e' hnone hmid
  bytes n hn := (h'.bytes n hn).trans (h.bytes n hn)

theorem put (hl : t.held? l = none) (he : e = .directory ∨ ∃ n, e = .file n ∧ own n) :
    Spares own t (t.put l e) where
  toExtends := .put hl fun target heq => by
    rcases he with rfl | ⟨n, rfl, -⟩ <;> cases heq
  added l' e' hnone hsome := by
    rw [held?_put (pieces_ne_nil hl)] at hsome
    split at hsome
    · obtain rfl := Option.some.inj hsome
      exact he
    · cases hnone.symm.trans hsome
  bytes _ _ := rfl

theorem fill (own : Nat → Prop) (hn : own n) (bytes : List UInt8) :
    Spares own t (t.fill n bytes) where
  toExtends := ⟨fun _ _ h => h, fun _ _ h => h, rfl⟩
  added l e hnone hsome := by cases hnone.symm.trans hsome
  bytes m hm := if_neg (by
    rintro rfl
    exact hm hn)

end Spares

/-- What writing a file does: nothing, or it fills the file at the end of the path, which may be
new. -/
theorem write_cases (path text : String) (t : FileTree) :
    (∃ e, (write path text).run t = (.error e, t)) ∨
      ∃ l, t.find true path (Path.pieces path) = .ok l ∧
        ((∃ n, t.held? l = some (.file n) ∧
            (write path text).run t = (.ok (), t.fill n text.toUTF8.toList)) ∨
          t.held? l = none ∧ (write path text).run t =
            (.ok (), (t.put l (.file t.freshNumber)).fill t.freshNumber text.toUTF8.toList)) := by
  simp only [write, StateT.run_bind, StateT.run_get, pure_bind]
  cases t.find true path (Path.pieces path) with
  | error cause => exact .inl ⟨_, rfl⟩
  | ok l =>
    dsimp only
    split
    · next n hfile =>
      split
      · exact .inl ⟨_, rfl⟩
      · exact .inr ⟨l, rfl, .inl ⟨n, hfile, rfl⟩⟩
    · exact .inl ⟨_, rfl⟩
    · next hnone =>
      split
      · exact .inl ⟨_, rfl⟩
      · exact .inr ⟨l, rfl, .inr ⟨hnone, rfl⟩⟩

/-- A path to which a text was written leads to a file that holds it, and no other file was
touched. -/
theorem write_ok (h : (write path text).run t = (.ok (), t')) :
    ∃ n, t'.file? path = some n ∧ t'.bytes n = text.toUTF8.toList ∧ Spares (· = n) t t' := by
  obtain ⟨e, hrun⟩ | ⟨l, hfind, ⟨n, hfile, hrun⟩ | ⟨hnone, hrun⟩⟩ := write_cases path text t
  · cases hrun.symm.trans h
  · obtain ⟨-, rfl⟩ := Prod.mk.inj (hrun.symm.trans h)
    have hspares : Spares (· = n) t (t.fill n text.toUTF8.toList) := .fill (· = n) rfl _
    exact ⟨n, file?_eq_some.mpr ⟨l, hspares.find hfind, hfile⟩, if_pos rfl, hspares⟩
  · obtain ⟨-, rfl⟩ := Prod.mk.inj (hrun.symm.trans h)
    have hput : Spares (· = t.freshNumber) t (t.put l (.file t.freshNumber)) :=
      .put hnone (.inr ⟨_, rfl, rfl⟩)
    have hspares := hput.trans (.fill (· = t.freshNumber) rfl text.toUTF8.toList)
    refine ⟨_, file?_eq_some.mpr ⟨l, hspares.find hfind, ?_⟩, if_pos rfl, hspares⟩
    rw [held?_fill, held?_put (pieces_ne_nil hnone), if_pos rfl]

end Spares

/-- A new file has a number that no other file has. -/
theorem Unlinked.write (h : t.Unlinked) (hrun : (FileTree.write path text).run t = (.ok (), t')) :
    t'.Unlinked := by
  obtain ⟨e, heq⟩ | ⟨l, -, ⟨n, -, heq⟩ | ⟨hnone, heq⟩⟩ := write_cases path text t
  · cases heq.symm.trans hrun
  · obtain ⟨-, rfl⟩ := Prod.mk.inj (heq.symm.trans hrun)
    exact ⟨h.links, h.single⟩
  · obtain ⟨-, rfl⟩ := Prod.mk.inj (heq.symm.trans hrun)
    have hextends : t.Extends (t.put l (.file t.freshNumber)) := .put hnone nofun
    refine ⟨fun k target hlink => h.links k target (hextends.links k target hlink),
      fun k k' m hk hk' => ?_⟩
    rw [held?_fill, held?_put (pieces_ne_nil hnone)] at hk hk'
    split at hk <;> split at hk'
    · next heq heq' => exact heq.trans heq'.symm
    · obtain ⟨⟩ := hk
      exact absurd (lt_freshNumber hk') (Nat.lt_irrefl _)
    · obtain ⟨⟩ := hk'
      exact absurd (lt_freshNumber hk) (Nat.lt_irrefl _)
    · exact h.single k k' m hk hk'

end FileTree

end CSubset.Command
