import CommodoreBasic.Proofs.Grammar.Derivation
import CommodoreBasic.Proofs.Grammar.Relocation
import Mathlib.Data.List.Forall2

/-!
# The nodes of a tree

`Item.listNodes` lists items with all items inside them in the order of the text: a group comes
before what it encloses, and that comes before the item after the group (`Item.listNodes_split`).
`Line.places` lists every position in a line, those of statements included; each is that of a lexeme
(`Parse.DerivesProgram.exists_place`).

A node stands where the lexeme does with which it begins. `Parse.DerivesLine.exists_begins` picks
these lexemes out of those that a line is derived from, in their order.
-/

namespace CommodoreBasic

mutual

/-- An item and the items inside it, in the order of the text. -/
def Item.nodes : Item → List Item
  | .atom p a mark => [.atom p a mark]
  | .group p start inner mark => .group p start inner mark :: Item.listNodes inner

/-- Items and the items inside them, in the order of the text. -/
def Item.listNodes : List Item → List Item
  | [] => []
  | i :: is => i.nodes ++ Item.listNodes is

end

namespace Item

@[simp] theorem listNodes_nil : listNodes [] = [] := by rw [listNodes]

@[simp] theorem listNodes_atom (p : Position) (a : Atom) (mark : Option Char) (is : List Item) :
    listNodes (.atom p a mark :: is) = .atom p a mark :: listNodes is := by
  rw [listNodes, nodes, List.singleton_append]

@[simp] theorem listNodes_group (p start : Position) (inner : List Item) (mark : Option Char)
    (is : List Item) :
    listNodes (.group p start inner mark :: is) =
      .group p start inner mark :: (listNodes inner ++ listNodes is) := by
  rw [listNodes, nodes, List.cons_append]

theorem listNodes_append (is js : List Item) :
    listNodes (is ++ js) = listNodes is ++ listNodes js := by
  induction is using list_induction with
  | nil => rw [listNodes_nil, List.nil_append, List.nil_append]
  | atom p a mark is ih =>
    rw [List.cons_append, listNodes_atom, listNodes_atom, ih, List.cons_append]
  | group p start inner mark is _ ih =>
    rw [List.cons_append, listNodes_group, listNodes_group, ih, List.cons_append, List.append_assoc]

/-- The items outside of parentheses are some of all items, in their order. -/
theorem sublist_listNodes (is : List Item) : is.Sublist (listNodes is) := by
  induction is using list_induction with
  | nil => exact List.nil_sublist _
  | atom p a mark is ih =>
    rw [listNodes_atom]
    exact ih.cons_cons _
  | group p start inner mark is _ ih =>
    rw [listNodes_group]
    exact (ih.trans (List.sublist_append_right ..)).cons_cons _

/-- After a group comes what is inside it. -/
theorem listNodes_split {items before rest : List Item} {p start : Position} {inner : List Item}
    {mark : Option Char} (h : listNodes items = before ++ .group p start inner mark :: rest) :
    ∃ after, rest = listNodes inner ++ after := by
  induction items using list_induction generalizing before rest with
  | nil => simp at h
  | atom q a m is ih =>
    rw [listNodes_atom] at h
    cases before with
    | nil => cases h
    | cons b before =>
      rw [List.cons_append] at h
      obtain ⟨-, later⟩ := List.cons.inj h
      exact ih later
  | group q s content m is inside ih =>
    rw [listNodes_group] at h
    cases before with
    | nil =>
      cases h
      exact ⟨listNodes is, rfl⟩
    | cons b before =>
      rw [List.cons_append] at h
      obtain ⟨-, later⟩ := List.cons.inj h
      -- the group is one of those inside, or it comes after all of them
      rcases List.append_eq_append_iff.mp later with ⟨front, -, split⟩ | ⟨back, same, split⟩
      · exact ih split
      · cases back with
        | nil =>
          have first : listNodes is = [] ++ .group p start inner mark :: rest := split.symm
          exact ih first
        | cons b back =>
          rw [List.cons_append] at split
          obtain ⟨rfl, rest_eq⟩ := List.cons.inj split
          obtain ⟨after, rfl⟩ := inside same
          exact ⟨after ++ listNodes is, by rw [rest_eq, List.append_assoc]⟩

/-- The positions of a node itself: its own one, and that of the statement in a group. -/
def ownPlaces : Item → List Position
  | atom p _ _ => [p]
  | group p start _ _ => [p, start]

@[simp] theorem ownPlaces_atom (p : Position) (a : Atom) (mark : Option Char) :
    (atom p a mark).ownPlaces = [p] := rfl

@[simp] theorem ownPlaces_group (p start : Position) (inner : List Item) (mark : Option Char) :
    (group p start inner mark).ownPlaces = [p, start] := rfl

/-- Every position in items, in the order of the text. -/
def listPlaces (is : List Item) : List Position := (listNodes is).flatMap ownPlaces

@[simp] theorem listPlaces_nil : listPlaces [] = [] := by
  rw [listPlaces, listNodes_nil, List.flatMap_nil]

@[simp] theorem listPlaces_atom (p : Position) (a : Atom) (mark : Option Char) (is : List Item) :
    listPlaces (.atom p a mark :: is) = p :: listPlaces is := by
  rw [listPlaces, listNodes_atom, List.flatMap_cons, ownPlaces_atom, List.singleton_append,
    listPlaces]

@[simp] theorem listPlaces_group (p start : Position) (inner : List Item) (mark : Option Char)
    (is : List Item) :
    listPlaces (.group p start inner mark :: is) =
      p :: start :: (listPlaces inner ++ listPlaces is) := by
  simp [listPlaces]

end Item

/-- Every position in a statement, in the order of the text. -/
def Statement.places (s : Statement) : List Position := s.position :: Item.listPlaces s.items

namespace Line

/-- The items of a line and the items inside them, in the order of the text. -/
def nodes (line : Line) : List Item := Item.listNodes (line.statements.flatMap Statement.items)

/-- Every position in a line, in the order of the text. -/
def places (line : Line) : List Position :=
  line.position :: line.statements.flatMap Statement.places

end Line

/-! ## Moved trees -/

section

variable (f g : Position → Position)

theorem Item.map_relocate_relocate (is : List Item) :
    (is.map (relocate f)).map (relocate g) = is.map (relocate (g ∘ f)) := by
  induction is using list_induction with
  | nil => rfl
  | atom p a mark is ih => rw [List.map_cons, List.map_cons, List.map_cons, ih]; simp
  | group p start inner mark is inside ih =>
    rw [List.map_cons, List.map_cons, List.map_cons, ih, relocate_group, relocate_group, inside,
      relocate_group]
    rfl

theorem Statement.relocate_relocate (s : Statement) :
    (s.relocate f).relocate g = s.relocate (g ∘ f) := by
  obtain ⟨position, items⟩ := s
  simp only [relocate_mk, Item.map_relocate_relocate, Function.comp_apply]

/-- Moving a line twice is moving it once. -/
theorem Line.relocate_relocate (line : Line) :
    (line.relocate f).relocate g = line.relocate (g ∘ f) := by
  obtain ⟨label, position, body⟩ := line
  cases body with
  | comment text => rfl
  | statements ss =>
    have same : Statement.relocate g ∘ Statement.relocate f = Statement.relocate (g ∘ f) :=
      funext (Statement.relocate_relocate f g)
    simp only [relocate_mk, Body.relocate_statements, List.map_map, same, Function.comp_apply]

theorem Item.listPlaces_relocate (is : List Item) :
    listPlaces (is.map (relocate f)) = (listPlaces is).map f := by
  induction is using list_induction with
  | nil => simp
  | atom p a mark is ih => simp [ih]
  | group p start inner mark is inside ih => simp [inside, ih]

theorem Statement.places_relocate (s : Statement) : (s.relocate f).places = s.places.map f := by
  obtain ⟨position, items⟩ := s
  rw [places, places, relocate_mk, Item.listPlaces_relocate, List.map_cons]

theorem Line.places_relocate (line : Line) : (line.relocate f).places = line.places.map f := by
  obtain ⟨label, position, body⟩ := line
  cases body with
  | comment text => rfl
  | statements ss =>
    simp [places, statements, List.flatMap_map, List.map_flatMap,
      Statement.places_relocate]

end

namespace Parse

/-! ## Positions and lexemes -/

/-- Each position in items is that of a lexeme. -/
theorem DerivesItems.exists_place {ls : List Lexeme} {items : List Item}
    (h : DerivesItems ls items) : ∀ p ∈ Item.listPlaces items, ∃ l ∈ ls, l.position = p := by
  induction h with
  | nil => simp
  | @atom l a marks ls mark items head trail later ih =>
    rw [Item.listPlaces_atom]
    intro p member
    rcases List.mem_cons.mp member with rfl | member
    · exact ⟨l, List.mem_cons_self, rfl⟩
    · obtain ⟨m, inside, same⟩ := ih p member
      exact ⟨m, by simp [inside], same⟩
  | @group opening first closing inside marks ls inner mark items opens statement closes trail later
      inner_ih ih =>
    rw [Item.listPlaces_group]
    intro p member
    rcases List.mem_cons.mp member with rfl | member
    · exact ⟨opening, List.mem_cons_self, rfl⟩
    rcases List.mem_cons.mp member with rfl | member
    · exact ⟨first, by simp, rfl⟩
    rcases List.mem_append.mp member with member | member
    · obtain ⟨m, inside, same⟩ := inner_ih p member
      exact ⟨m, List.mem_cons_of_mem _ (List.mem_append_left _ inside), same⟩
    · obtain ⟨m, inside, same⟩ := ih p member
      exact ⟨m, by simp [inside], same⟩

theorem DerivesStatement.exists_place {ls : List Lexeme} {s : Statement}
    (h : DerivesStatement ls s) : ∀ p ∈ s.places, ∃ l ∈ ls, l.position = p := by
  cases h with
  | @items l ls items content =>
    intro p member
    rcases List.mem_cons.mp member with rfl | member
    · exact ⟨l, List.mem_cons_self, rfl⟩
    · exact content.exists_place p member

theorem DerivesStatements.exists_place {ls : List Lexeme} {ss : List Statement}
    (h : DerivesStatements ls ss) :
    ∀ p ∈ ss.flatMap Statement.places, ∃ l ∈ ls, l.position = p := by
  induction h with
  | one statement =>
    rw [List.flatMap_singleton]
    exact statement.exists_place
  | cons statement _ _ ih =>
    rw [List.flatMap_cons]
    intro p member
    rcases List.mem_append.mp member with member | member
    · obtain ⟨l, inside, same⟩ := statement.exists_place p member
      exact ⟨l, List.mem_append_left _ inside, same⟩
    · obtain ⟨l, inside, same⟩ := ih p member
      exact ⟨l, List.mem_append_right _ (List.mem_cons_of_mem _ inside), same⟩

theorem DerivesLine.exists_place {ls : List Lexeme} {line : Line} (h : DerivesLine ls line) :
    ∀ p ∈ line.places, ∃ l ∈ ls, l.position = p := by
  cases h with
  | @comment l m n text label remark =>
    intro p member
    obtain rfl := List.mem_singleton.mp member
    exact ⟨l, List.mem_cons_self, rfl⟩
  | @statements l n ls ss label statements =>
    intro p member
    rcases List.mem_cons.mp member with rfl | member
    · exact ⟨l, List.mem_cons_self, rfl⟩
    · obtain ⟨m, inside, same⟩ := statements.exists_place p member
      exact ⟨m, List.mem_cons_of_mem l inside, same⟩

/-- Each position in lines is that of a lexeme. -/
theorem DerivesProgram.exists_place {ls : List Lexeme} {lines : List Line}
    (h : DerivesProgram ls lines) : ∀ p ∈ lines.flatMap Line.places, ∃ l ∈ ls, l.position = p := by
  induction h with
  | nil => simp
  | endOfLine _ _ ih =>
    intro p member
    obtain ⟨l, inside, same⟩ := ih p member
    exact ⟨l, List.mem_cons_of_mem _ inside, same⟩
  | line content _ _ ih =>
    rw [List.flatMap_cons]
    intro p member
    rcases List.mem_append.mp member with member | member
    · obtain ⟨l, inside, same⟩ := content.exists_place p member
      exact ⟨l, List.mem_append_left _ inside, same⟩
    · obtain ⟨l, inside, same⟩ := ih p member
      exact ⟨l, List.mem_append_right _ (List.mem_cons_of_mem _ inside), same⟩
  | last content =>
    rw [List.flatMap_singleton]
    exact content.exists_place

/-! ## Nodes and lexemes -/

/-- A node begins with a lexeme, and stands where the lexeme does. -/
inductive Begins : Lexeme → Item → Prop
  | atom {l : Lexeme} {a : Atom} {mark : Option Char} (head : IsAtom l.token a) :
      Begins l (.atom l.position a mark)
  | group {l : Lexeme} {start : Position} {inner : List Item} {mark : Option Char}
      (opens : l.token = .punctuation '(') : Begins l (.group l.position start inner mark)

theorem Begins.position {l : Lexeme} {i : Item} (h : Begins l i) : i.position = l.position := by
  cases h <;> rfl

/-- A node that is a keyword begins with its lexeme. -/
theorem Begins.token_of_keyword {l : Lexeme} {i : Item} (h : Begins l i) {k : Keyword}
    (isKeyword : i.keyword? = some k) : l.token = .keyword k := by
  cases h with
  | group => contradiction
  | atom head =>
    generalize token : l.token = t at head
    cases head with
    | keyword =>
      cases isKeyword
      rfl
    | _ => contradiction

/-- The nodes of items begin with some of the lexemes, in their order. -/
theorem DerivesItems.exists_begins {ls : List Lexeme} {items : List Item}
    (h : DerivesItems ls items) :
    ∃ ns, ns.Sublist ls ∧ List.Forall₂ Begins ns (Item.listNodes items) := by
  induction h with
  | nil =>
    rw [Item.listNodes_nil]
    exact ⟨[], .slnil, .nil⟩
  | @atom l a marks ls mark items head trail later ih =>
    obtain ⟨ns, among, begins⟩ := ih
    rw [Item.listNodes_atom]
    exact ⟨l :: ns, (among.trans (List.sublist_append_right marks ls)).cons_cons l,
      .cons (.atom head) begins⟩
  | @group opening first closing inside marks ls inner mark items opens statement closes trail later
      inner_ih ih =>
    obtain ⟨ms, within, inner_begins⟩ := inner_ih
    obtain ⟨ns, among, begins⟩ := ih
    have after : ns.Sublist (closing :: (marks ++ ls)) :=
      (among.trans (List.sublist_append_right marks ls)).cons closing
    rw [Item.listNodes_group]
    exact ⟨opening :: (ms ++ ns), (within.append after).cons_cons opening,
      .cons (.group opens) (List.rel_append inner_begins begins)⟩

theorem DerivesStatements.exists_begins {ls : List Lexeme} {ss : List Statement}
    (h : DerivesStatements ls ss) :
    ∃ ns, ns.Sublist ls ∧
      List.Forall₂ Begins ns (Item.listNodes (ss.flatMap Statement.items)) := by
  induction h with
  | one statement =>
    cases statement with
    | items content =>
      rw [List.flatMap_singleton]
      exact content.exists_begins
  | @cons ls ms colon s ss statement isColon later ih =>
    cases statement with
    | items content =>
      obtain ⟨ks, front, begins⟩ := content.exists_begins
      obtain ⟨ns, back, later_begins⟩ := ih
      rw [List.flatMap_cons, Item.listNodes_append]
      exact ⟨ks ++ ns, front.append (back.cons colon), List.rel_append begins later_begins⟩

/-- The label and the nodes of a line begin with some of its lexemes, in their order. -/
theorem DerivesLine.exists_begins {ls : List Lexeme} {line : Line} (h : DerivesLine ls line) :
    ∃ l ns, (l :: ns).Sublist ls ∧ l.position = line.position ∧ IsLabel l.token line.label ∧
      List.Forall₂ Begins ns line.nodes := by
  cases h with
  | @comment l m n text label remark =>
    refine ⟨l, [], (List.nil_sublist [m]).cons_cons l, rfl, label, ?_⟩
    rw [show Line.nodes ⟨n, l.position, .comment text⟩ = Item.listNodes [] from rfl,
      Item.listNodes_nil]
    exact .nil
  | @statements l n ls ss label statements =>
    obtain ⟨ns, among, begins⟩ := statements.exists_begins
    exact ⟨l, ns, among.cons_cons l, rfl, label, begins⟩

end Parse

end CommodoreBasic
