import Vendoring.Proofs.Files.Disk

/-! Walks: the places that one passes, and what it comes to however the rest of the disk is. -/
namespace Vendoring.Files

namespace Disk
open Outcome

/-- Takes some steps, through places outside of `S` only. A walk goes from a place with steps left
to another one with steps left, and with a number of links that it may still follow. -/
inductive Way (d : Disk) (S : Set Trail) :
    Nat → Trail → List String → Nat → Trail → List String → Prop
  | stop {links : Nat} {place : Trail} {steps : List String} (off : place ∉ S) :
      Way d S links place steps links place steps
  | stay {links place rest links' place' steps'} (off : place ∉ S)
      (dir : d.node? place = some .directory) (on : Way d S links place rest links' place' steps') :
      Way d S links place ("." :: rest) links' place' steps'
  | up {links place rest links' place' steps'} (off : place ∉ S)
      (dir : d.node? place = some .directory)
      (on : Way d S links place.dropLast rest links' place' steps') :
      Way d S links place (".." :: rest) links' place' steps'
  | down {links place name k rest links' place' steps'} (off : place ∉ S)
      (dir : d.node? place = some .directory) (plain : name ≠ "." ∧ name ≠ "..")
      (fits : isTooLong name = false) (next : d.node? (place ++ [name]) = some k)
      (tree : ∀ target, k ≠ .link target)
      (on : Way d S links (place ++ [name]) rest links' place' steps') :
      Way d S links place (name :: rest) links' place' steps'
  | link {links place name target rest links' place' steps'} (off : place ∉ S)
      (dir : d.node? place = some .directory) (plain : name ≠ "." ∧ name ≠ "..")
      (fits : isTooLong name = false) (offLink : place ++ [name] ∉ S)
      (next : d.node? (place ++ [name]) = some (.link target))
      (on : Way d S links (startOf ⟨target⟩ place) (stepsOf ⟨target⟩ ++ rest) links' place'
        steps') :
      Way d S (links + 1) place (name :: rest) links' place' steps'

variable {d d' : Disk} {S S' : Set Trail} {place place' q : Trail}
  {name target : String} {steps more rest : List String} {follow : Bool} {links links' : Nat}
  {es : List (String × Tree)} {k : Node} {onward : Trail → List String → Except Fault Spot}

/-- What a walk says about the disk where it ends. -/
def Ends (d : Disk) : Spot → Prop
  | .held q x => d.get? q = some x
  | .free q name =>
    d.node? q = some .directory ∧ d.node? (q ++ [name]) = none ∧ isTooLong name = false

/-- What a walk that succeeds does first. -/
inductive Goes (d : Disk) (follow : Bool) (onward : Trail → List String → Except Fault Spot)
    (place : Trail) : List String → Spot → Prop
  | arrive {x : Tree} (tree : d.get? place = some x) : Goes d follow onward place [] (.held place x)
  | stay {rest : List String} {spot : Spot} (dir : d.node? place = some .directory)
      (on : d.walkOn follow onward place rest = .ok spot) :
      Goes d follow onward place ("." :: rest) spot
  | up {rest : List String} {spot : Spot} (dir : d.node? place = some .directory)
      (on : d.walkOn follow onward place.dropLast rest = .ok spot) :
      Goes d follow onward place (".." :: rest) spot
  | free {name : String} (dir : d.node? place = some .directory) (plain : name ≠ "." ∧ name ≠ "..")
      (fits : isTooLong name = false) (empty : d.node? (place ++ [name]) = none) :
      Goes d follow onward place [name] (.free place name)
  | halt {name target : String} (dir : d.node? place = some .directory)
      (plain : name ≠ "." ∧ name ≠ "..") (fits : isTooLong name = false)
      (next : d.get? (place ++ [name]) = some (.link target)) (last : follow = false) :
      Goes d follow onward place [name] (.held (place ++ [name]) (.link target))
  | link {name target : String} {rest : List String} {spot : Spot}
      (dir : d.node? place = some .directory) (plain : name ≠ "." ∧ name ≠ "..")
      (fits : isTooLong name = false) (next : d.node? (place ++ [name]) = some (.link target))
      (on : onward (startOf ⟨target⟩ place) (stepsOf ⟨target⟩ ++ rest) = .ok spot) :
      Goes d follow onward place (name :: rest) spot
  | down {name : String} {k : Node} {rest : List String} {spot : Spot}
      (dir : d.node? place = some .directory) (plain : name ≠ "." ∧ name ≠ "..")
      (fits : isTooLong name = false) (next : d.node? (place ++ [name]) = some k)
      (tree : ∀ target, k ≠ .link target)
      (on : d.walkOn follow onward (place ++ [name]) rest = .ok spot) :
      Goes d follow onward place (name :: rest) spot

theorem goes_of_walkOn {spot : Spot} (h : d.walkOn follow onward place steps = .ok spot) :
    Goes d follow onward place steps spot := by
  cases steps with
  | nil =>
    rw [walkOn] at h
    split at h
    · next x hx =>
      cases h
      exact .arrive hx
    · cases h
  | cons s rest =>
    rw [walkOn] at h
    split at h
    · cases h
    · next es hd =>
      have dir := node?_eq_directory.2 ⟨es, hd⟩
      split at h
      · next hdot => exact hdot ▸ .stay dir h
      next hdot =>
      split at h
      · next hup => exact hup ▸ .up dir h
      next hup =>
      split at h
      · cases h
      next hlong =>
      have fits : isTooLong s = false := by simpa using hlong
      have hnode := node?_concat hd s
      split at h
      · next hn =>
        split at h
        · next hnil =>
          cases h
          exact hnil ▸ .free dir ⟨hdot, hup⟩ fits (by simp [hnode, hn])
        · cases h
      · next target hn =>
        split at h
        · next hlast =>
          cases h
          obtain ⟨rfl, hf⟩ := hlast
          exact .halt dir ⟨hdot, hup⟩ fits ((get?_concat hd s).trans hn) (by simpa using hf)
        · exact .link dir ⟨hdot, hup⟩ fits (by simp [hnode, hn, Tree.node]) h
      · next y hlink hn =>
        refine .down dir ⟨hdot, hup⟩ fits (k := y.node) (by simp [hnode, hn]) (fun target hk => ?_) h
        cases y with
        | link _ => exact hlink _ rfl
        | file _ => cases hk
        | directory _ => cases hk
    · cases h

theorem walkOn_ends (hon : ∀ q ss spot, onward q ss = .ok spot → d.Ends spot) {spot : Spot}
    (h : d.walkOn follow onward place steps = .ok spot) : d.Ends spot := by
  induction steps generalizing place with
  | nil =>
    cases goes_of_walkOn h with
    | arrive tree => exact tree
  | cons s rest ih =>
    cases goes_of_walkOn h with
    | stay dir on => exact ih on
    | up dir on => exact ih on
    | free dir plain fits empty => exact ⟨dir, empty, fits⟩
    | halt dir plain fits next last => exact next
    | link dir plain fits next on => exact hon _ _ _ on
    | down dir plain fits next tree on => exact ih on

theorem walk_ends {spot : Spot} (h : d.walk follow links place steps = .ok spot) :
    d.Ends spot := by
  induction links generalizing place steps spot with
  | zero =>
    refine walkOn_ends (fun q ss spot he => ?_) h
    cases he
  | succ links ih => exact walkOn_ends (fun q ss spot he => ih he) h

theorem Way.off_end {steps' : List String}
    (h : Way d S links place steps links' place' steps') : place' ∉ S := by
  induction h with
  | stop off => exact off
  | stay _ _ _ ih => exact ih
  | up _ _ _ ih => exact ih
  | down _ _ _ _ _ _ _ ih => exact ih
  | link _ _ _ _ _ _ _ ih => exact ih

theorem Way.off_start {steps' : List String}
    (h : Way d S links place steps links' place' steps') : place ∉ S := by
  cases h <;> assumption

theorem Way.agree {steps' : List String} (h : Way d S links place steps links' place' steps')
    (ha : Agree S d d') : Way d' S links place steps links' place' steps' := by
  induction h with
  | stop off => exact .stop off
  | stay off dir _ ih => exact .stay off ((ha.node _ off).trans dir) ih
  | up off dir _ ih => exact .up off ((ha.node _ off).trans dir) ih
  | down off dir plain fits next tree on ih =>
    exact .down off ((ha.node _ off).trans dir) plain fits ((ha.node _ on.off_start).trans next)
      tree ih
  | link off dir plain fits offLink next _ ih =>
    exact .link off ((ha.node _ off).trans dir) plain fits offLink
      ((ha.node _ offLink).trans next) ih

theorem Way.mono {steps' : List String} (h : Way d S links place steps links' place' steps')
    (hs : S' ⊆ S) : Way d S' links place steps links' place' steps' := by
  induction h with
  | stop off => exact .stop fun hm => off (hs hm)
  | stay off dir _ ih => exact .stay (fun hm => off (hs hm)) dir ih
  | up off dir _ ih => exact .up (fun hm => off (hs hm)) dir ih
  | down off dir plain fits next tree _ ih =>
    exact .down (fun hm => off (hs hm)) dir plain fits next tree ih
  | link off dir plain fits offLink next _ ih =>
    exact .link (fun hm => off (hs hm)) dir plain fits (fun hm => offLink (hs hm)) next ih

theorem Way.append {steps' : List String} (h : Way d S links place steps links' place' steps')
    (more : List String) :
    Way d S links place (steps ++ more) links' place' (steps' ++ more) := by
  induction h with
  | stop off => exact .stop off
  | stay off dir _ ih => exact .stay off dir ih
  | up off dir _ ih => exact .up off dir ih
  | down off dir plain fits next tree _ ih => exact .down off dir plain fits next tree ih
  | link off dir plain fits offLink next _ ih =>
    rw [List.append_assoc] at ih
    exact .link off dir plain fits offLink next ih

theorem Way.trans {links'' : Nat} {place'' : Trail} {steps' steps'' : List String}
    (h : Way d S links place steps links' place' steps')
    (h' : Way d S links' place' steps' links'' place'' steps'') :
    Way d S links place steps links'' place'' steps'' := by
  induction h with
  | stop _ => exact h'
  | stay off dir _ ih => exact .stay off dir (ih h')
  | up off dir _ ih => exact .up off dir (ih h')
  | down off dir plain fits next tree _ ih => exact .down off dir plain fits next tree (ih h')
  | link off dir plain fits offLink next _ ih =>
    exact .link off dir plain fits offLink next (ih h')

theorem walkOn_stay (h : d.node? place = some .directory) :
    d.walkOn follow onward place ("." :: rest) = d.walkOn follow onward place rest := by
  obtain ⟨es, hd⟩ := node?_eq_directory.1 h
  rw [walkOn, hd]
  rfl

theorem walkOn_up (h : d.node? place = some .directory) :
    d.walkOn follow onward place (".." :: rest) =
      d.walkOn follow onward place.dropLast rest := by
  obtain ⟨es, hd⟩ := node?_eq_directory.1 h
  rw [walkOn, hd]
  rfl

theorem walkOn_name (hd : d.get? place = some (.directory es)) (plain : name ≠ "." ∧ name ≠ "..")
    (fits : isTooLong name = false) :
    d.walkOn follow onward place (name :: rest) = match d.get? (place ++ [name]) with
      | none => if rest = [] then .ok (.free place name) else .error .notFound
      | some (.link target) =>
        if rest = [] ∧ ¬follow then .ok (.held (place ++ [name]) (.link target))
        else onward (startOf ⟨target⟩ place) (stepsOf ⟨target⟩ ++ rest)
      | some _ => d.walkOn follow onward (place ++ [name]) rest := by
  rw [walkOn, hd, get?_concat hd]
  cases hx : Keyed.get? es name with
  | none => simp only [hx, plain.1, plain.2, fits, if_false, Bool.false_eq_true]
  | some x =>
    cases x <;> simp only [hx, plain.1, plain.2, fits, if_false, Bool.false_eq_true]

theorem walkOn_down (hd : d.node? place = some .directory) (plain : name ≠ "." ∧ name ≠ "..")
    (fits : isTooLong name = false) (next : d.node? (place ++ [name]) = some k)
    (tree : ∀ target, k ≠ .link target) :
    d.walkOn follow onward place (name :: rest) =
      d.walkOn follow onward (place ++ [name]) rest := by
  obtain ⟨es, hd⟩ := node?_eq_directory.1 hd
  obtain ⟨x, hx, rfl⟩ := node?_eq_some.1 next
  rw [walkOn_name hd plain fits, hx]
  cases x with
  | link target => exact absurd rfl (tree target)
  | file _ => rfl
  | directory _ => rfl

/-! However many links may still be followed, these steps are taken alike. -/

theorem walk_end {x : Tree} (hx : d.get? place = some x) :
    d.walk follow links place [] = .ok (.held place x) := by
  cases links <;> rw [walk, walkOn, hx]

theorem walk_stay (h : d.node? place = some .directory) :
    d.walk follow links place ("." :: rest) = d.walk follow links place rest := by
  cases links <;> exact walkOn_stay h

theorem walk_up (h : d.node? place = some .directory) :
    d.walk follow links place (".." :: rest) = d.walk follow links place.dropLast rest := by
  cases links <;> exact walkOn_up h

theorem walk_down (hd : d.node? place = some .directory) (plain : name ≠ "." ∧ name ≠ "..")
    (fits : isTooLong name = false) (next : d.node? (place ++ [name]) = some k)
    (tree : ∀ target, k ≠ .link target) :
    d.walk follow links place (name :: rest) = d.walk follow links (place ++ [name]) rest := by
  cases links <;> exact walkOn_down hd plain fits next tree

theorem walk_free (hd : d.node? place = some .directory) (plain : name ≠ "." ∧ name ≠ "..")
    (fits : isTooLong name = false) (next : d.node? (place ++ [name]) = none) :
    d.walk follow links place [name] = .ok (.free place name) := by
  obtain ⟨es, hd⟩ := node?_eq_directory.1 hd
  cases links <;> rw [walk, walkOn_name hd plain fits, node?_eq_none.1 next, if_pos rfl]

/-- A walk goes on from where a way ends. -/
theorem walk_way {steps' : List String} (h : Way d S links place steps links' place' steps')
    (hf : follow = true ∨ more ≠ []) :
    d.walk follow links place (steps ++ more) = d.walk follow links' place' (steps' ++ more) := by
  induction h with
  | stop _ => rfl
  | stay _ dir _ ih => exact (walk_stay dir).trans ih
  | up _ dir _ ih => exact (walk_up dir).trans ih
  | down _ dir plain fits next tree _ ih => exact (walk_down dir plain fits next tree).trans ih
  | @link _ _ _ _ rest _ _ _ _ dir plain fits _ next _ ih =>
    obtain ⟨es, hd⟩ := node?_eq_directory.1 dir
    have hm : ¬ (rest ++ more = [] ∧ ¬ follow = true) := by
      rintro ⟨he, hn⟩
      exact hf.elim hn fun hne => hne (List.append_eq_nil_iff.1 he).2
    rw [← ih, List.cons_append, walk, walkOn_name hd plain fits, node?_eq_link.1 next]
    simp only [hm, if_false, List.append_assoc]

/-- A way goes on existing when more comes to be on the disk. -/
theorem Way.grow {steps' : List String} (h : Way d S links place steps links' place' steps')
    (hd : ∀ t k, d.node? t = some k → d'.node? t = some k) :
    Way d' S links place steps links' place' steps' := by
  induction h with
  | stop off => exact .stop off
  | stay off dir _ ih => exact .stay off (hd _ _ dir) ih
  | up off dir _ ih => exact .up off (hd _ _ dir) ih
  | down off dir plain fits next tree _ ih =>
    exact .down off (hd _ _ dir) plain fits (hd _ _ next) tree ih
  | link off dir plain fits offLink next _ ih =>
    exact .link off (hd _ _ dir) plain fits offLink (hd _ _ next) ih

theorem walkOn_front {spot : Spot} (hw : d.walk follow links = d.walkOn follow onward)
    (hon : ∀ q ss, onward q (ss ++ more) = .ok spot → ∃ n l t, links = n + 1 ∧
      Way d ∅ n q ss l t [] ∧ d.walk follow l t more = .ok spot)
    (hm : more ≠ [] ∨ follow = true ∧ ∃ t x, spot = .held t x)
    (h : d.walk follow links place (steps ++ more) = .ok spot) :
    ∃ l t, Way d ∅ links place steps l t [] ∧ d.walk follow l t more = .ok spot := by
  induction steps generalizing place with
  | nil => exact ⟨links, place, .stop id, h⟩
  | cons s rest ih =>
    rw [hw, List.cons_append] at h
    have hgoes := goes_of_walkOn h
    generalize hall : rest ++ more = all at hgoes
    -- The walk goes on behind this step, since there are more steps or it follows links to the last.
    have hgo (hnil : all = []) : follow = true ∧ ∃ t x, spot = .held t x :=
      hm.resolve_left fun hm => hm (List.append_eq_nil_iff.1 (hall.trans hnil)).2
    cases hgoes with
    | stay dir on =>
      rw [← hw, ← hall] at on
      obtain ⟨l, t, hway, hend⟩ := ih on
      exact ⟨l, t, .stay id dir hway, hend⟩
    | up dir on =>
      rw [← hw, ← hall] at on
      obtain ⟨l, t, hway, hend⟩ := ih on
      exact ⟨l, t, .up id dir hway, hend⟩
    | free =>
      obtain ⟨-, _, _, he⟩ := hgo rfl
      cases he
    | halt _ _ _ _ last =>
      obtain ⟨he, -⟩ := hgo rfl
      cases last.symm.trans he
    | link dir plain fits next on =>
      rw [← hall, ← List.append_assoc] at on
      obtain ⟨n, l, t, rfl, hway, hend⟩ := hon _ _ on
      exact ⟨l, t, .link id dir plain fits id next hway, hend⟩
    | down dir plain fits next tree on =>
      rw [← hw, ← hall] at on
      obtain ⟨l, t, hway, hend⟩ := ih on
      exact ⟨l, t, .down id dir plain fits next tree hway, hend⟩

/-- A walk comes to where its first steps lead before it takes the others. If there are no others it
must come to something and follow links to the last. -/
theorem walk_front {spot : Spot} (hm : more ≠ [] ∨ follow = true ∧ ∃ t x, spot = .held t x)
    (h : d.walk follow links place (steps ++ more) = .ok spot) :
    ∃ l t, Way d ∅ links place steps l t [] ∧ d.walk follow l t more = .ok spot := by
  induction links generalizing place steps with
  | zero =>
    refine walkOn_front rfl (fun q ss he => ?_) hm h
    cases he
  | succ links ih =>
    refine walkOn_front rfl (fun q ss he => ?_) hm h
    obtain ⟨l, t, hway, hend⟩ := ih he
    exact ⟨links, l, t, rfl, hway, hend⟩

theorem way_of_walk {t : Trail} {x : Tree}
    (h : d.walk true links place steps = .ok (.held t x)) :
    ∃ l, Way d ∅ links place steps l t [] := by
  rw [← List.append_nil steps] at h
  obtain ⟨l, t', hway, hend⟩ := walk_front (Or.inr ⟨rfl, t, x, rfl⟩) h
  have htree : d.walkOn true (fun _ _ => .error .notFound) t' [] = .ok (.held t x) := by
    cases l <;> exact hend
  cases goes_of_walkOn htree
  exact ⟨l, hway⟩

theorem Way.eq_of_nil {steps' : List String}
    (h : Way d S links place [] links' place' steps') :
    links' = links ∧ place' = place ∧ steps' = [] := by
  cases h
  exact ⟨rfl, rfl, rfl⟩

theorem Way.dir_of_end (h : Way d S links place steps links' place' [])
    (hd : d.node? place' = some .directory) : d.node? place = some .directory := by
  cases h <;> assumption

/-- A way that takes all of its steps takes the first of them first. -/
theorem Way.split (h : Way d S links place (steps ++ more) links' place' []) :
    ∃ l q, Way d S links place steps l q [] ∧ Way d S l q more links' place' [] := by
  generalize ha : steps ++ more = all at h
  generalize hn : ([] : List String) = left at h
  induction h generalizing steps with
  | stop off =>
    subst hn
    obtain ⟨rfl, rfl⟩ := List.append_eq_nil_iff.1 ha
    exact ⟨_, _, .stop off, .stop off⟩
  | stay off dir on ih =>
    cases steps with
    | nil =>
      subst ha hn
      exact ⟨_, _, .stop off, .stay off dir on⟩
    | cons s r =>
      cases ha
      obtain ⟨l, q, hr, hm⟩ := ih rfl hn
      exact ⟨l, q, .stay off dir hr, hm⟩
  | up off dir on ih =>
    cases steps with
    | nil =>
      subst ha hn
      exact ⟨_, _, .stop off, .up off dir on⟩
    | cons s r =>
      cases ha
      obtain ⟨l, q, hr, hm⟩ := ih rfl hn
      exact ⟨l, q, .up off dir hr, hm⟩
  | down off dir plain fits next tree on ih =>
    cases steps with
    | nil =>
      subst ha hn
      exact ⟨_, _, .stop off, .down off dir plain fits next tree on⟩
    | cons s r =>
      cases ha
      obtain ⟨l, q, hr, hm⟩ := ih rfl hn
      exact ⟨l, q, .down off dir plain fits next tree hr, hm⟩
  | link off dir plain fits offLink next on ih =>
    cases steps with
    | nil =>
      subst ha hn
      exact ⟨_, _, .stop off, .link off dir plain fits offLink next on⟩
    | cons s r =>
      cases ha
      obtain ⟨l, q, hr, hm⟩ := ih (List.append_assoc _ _ _) hn
      exact ⟨l, q, .link off dir plain fits offLink next hr, hm⟩

/-- Dots lead nowhere else. -/
theorem Way.dots {n : Nat} (h : Way d S links place (List.replicate n ".") links' place' []) :
    links' = links ∧ place' = place := by
  induction n with
  | zero =>
    obtain ⟨hl, hp, -⟩ := h.eq_of_nil
    exact ⟨hl, hp⟩
  | succ n ih =>
    rw [List.replicate_succ] at h
    generalize hs : "." :: List.replicate n "." = ss at h
    cases h with
    | stop _ => cases hs
    | stay _ _ on =>
      cases hs
      exact ih on
    | up _ _ _ => exact absurd (List.head_eq_of_cons_eq hs) (by decide)
    | down _ _ plain => exact absurd (List.head_eq_of_cons_eq hs).symm plain.1
    | link _ _ plain => exact absurd (List.head_eq_of_cons_eq hs).symm plain.1

theorem way_dots (off : place ∉ S) (dir : d.node? place = some .directory) (n : Nat) :
    Way d S links place (List.replicate n ".") links place [] := by
  induction n with
  | zero => exact .stop off
  | succ n ih => exact .stay off dir ih

/-- Names lead down from a place where there are no links below. -/
theorem way_down (hn : ∀ name ∈ rest, (name ≠ "." ∧ name ≠ "..") ∧ isTooLong name = false)
    (hd : ∀ r target, d.node? (place ++ r) ≠ some (.link target))
    (hq : d.node? (place ++ rest) = some .directory)
    (off : ∀ r, r <+: rest → place ++ r ∉ S) :
    Way d S links place rest links (place ++ rest) [] := by
  induction rest generalizing place with
  | nil =>
    rw [List.append_nil]
    have hoff := off [] (List.prefix_refl _)
    rw [List.append_nil] at hoff
    exact .stop hoff
  | cons name rest ih =>
    have hoff := off [] List.nil_prefix
    rw [List.append_nil] at hoff
    obtain ⟨plain, fits⟩ := hn name (List.mem_cons_self ..)
    have hsplit (r : Trail) : place ++ name :: r = place ++ [name] ++ r := by simp
    obtain ⟨k, hk⟩ : ∃ k, d.node? (place ++ [name]) = some k := by
      refine Option.ne_none_iff_exists'.1 fun hnone => ?_
      rw [hsplit rest, node?_append_of_none hnone] at hq
      cases hq
    refine .down hoff (node?_of_append hq) plain fits hk ?_ ?_
    · rintro target rfl
      exact hd _ target hk
    · rw [hsplit rest] at hq ⊢
      refine ih (fun name hm => hn name (List.mem_cons_of_mem _ hm)) (fun r target => ?_) hq
        fun r hr => ?_
      · rw [← hsplit r]
        exact hd _ target
      · rw [← hsplit r]
        exact off _ (List.cons_prefix_cons.2 ⟨rfl, hr⟩)

/-- Where there are no links a way goes straight down, if it never goes up. -/
theorem Way.down_end (h : Way d S links place steps links' q [])
    (hd : ∀ r target, d.node? (place ++ r) ≠ some (.link target)) (hs : ".." ∉ steps) :
    q = place ++ steps.filter (· ≠ ".") ∧
      ∀ name ∈ steps, name ≠ "." → isTooLong name = false := by
  generalize hn : ([] : List String) = left at h
  induction h with
  | stop off =>
    subst hn
    simp
  | stay off dir on ih =>
    obtain ⟨hq, hfits⟩ := ih hd (fun hm => hs (List.mem_cons_of_mem _ hm)) hn
    refine ⟨by simpa using hq, fun name hm hdot => ?_⟩
    exact hfits name ((List.mem_cons.1 hm).resolve_left hdot) hdot
  | up off dir on ih => exact absurd (List.mem_cons_self ..) hs
  | @down _ place name _ rest _ _ _ off dir plain fits next tree on ih =>
    have hd' : ∀ r target, d.node? (place ++ [name] ++ r) ≠ some (.link target) := by
      intro r target
      rw [List.append_assoc]
      exact hd _ target
    obtain ⟨hq, hfits⟩ := ih hd' (fun hm => hs (List.mem_cons_of_mem _ hm)) hn
    refine ⟨?_, fun other hm hdot => ?_⟩
    · rw [hq, List.filter_cons_of_pos (by simpa using plain.1), List.append_assoc]
      rfl
    · rcases List.mem_cons.1 hm with rfl | hm
      · exact fits
      · exact hfits other hm hdot
  | link off dir plain fits offLink next on ih => exact absurd next (hd _ _)

end Disk

end Vendoring.Files
