import LinearRelations.Proofs.Value

/-!
# The grammar of snippets

A snippet is an expression of a language in which operands are names, number literals, texts in
quotes, expressions in parentheses, and the entries of tables. An entry binds closest, then come
products and quotients, then sums and differences, each from left to right. A word that is reserved
names nothing.

* `Snippet.Lexeme`, `Snippet.Tree`: what an expression is made of, and its syntax tree;
* `Snippet.Derives`: the grammar, with three levels of expressions;
* `Snippet.State.step`: reading lexeme by lexeme, with a stack for the open brackets;
* `Snippet.Derives.leads`: what the grammar derives is read;
* `Snippet.Derives.unique`: so the grammar is unambiguous.
-/

namespace LinearRelations.Snippet

inductive Lexeme where
  | name (text : String)
  | number (value : Rat)
  | quoted (text : String)
  | operator (op : Operator)
  | opening
  | closing
  | entryOpening
  | entryClosing
  deriving DecidableEq, Repr

inductive Tree where
  | name (text : String)
  | number (value : Rat)
  | quoted (text : String)
  /-- The entry of a table under a key. -/
  | entry (table key : Tree)
  | node (lhs : Tree) (op : Operator) (rhs : Tree)
  deriving DecidableEq, Repr

/-- The words that name nothing. -/
def reserved : List String :=
  ["False", "None", "True", "and", "as", "assert", "async", "await", "break", "class", "continue",
    "def", "del", "elif", "else", "except", "finally", "for", "from", "global", "if", "import", "in",
    "is", "lambda", "nonlocal", "not", "or", "pass", "raise", "return", "try", "while", "with", "yield"]

/-! ### The grammar -/

/-- How tightly an expression holds together. -/
inductive Level where
  | operand
  | product
  | sum

/-- The lexemes that make up an expression of a level, with its tree. -/
inductive Derives : Level → List Lexeme → Tree → Prop
  | name {text : String} (h : text ∉ reserved) : Derives .operand [.name text] (.name text)
  | number (q : Rat) : Derives .operand [.number q] (.number q)
  | quoted (text : String) : Derives .operand [.quoted text] (.quoted text)
  | group {ls : List Lexeme} {t : Tree} (h : Derives .sum ls t) :
      Derives .operand (.opening :: ls ++ [.closing]) t
  | entry {ls ks : List Lexeme} {table key : Tree} (htable : Derives .operand ls table)
      (hkey : Derives .sum ks key) :
      Derives .operand (ls ++ .entryOpening :: ks ++ [.entryClosing]) (.entry table key)
  | operand {ls : List Lexeme} {t : Tree} (h : Derives .operand ls t) : Derives .product ls t
  | times {ls rs : List Lexeme} {l r : Tree} {op : Operator} (hl : Derives .product ls l)
      (hop : op.isAdditive = false) (hr : Derives .operand rs r) :
      Derives .product (ls ++ .operator op :: rs) (.node l op r)
  | product {ls : List Lexeme} {t : Tree} (h : Derives .product ls t) : Derives .sum ls t
  | plus {ls rs : List Lexeme} {l r : Tree} {op : Operator} (hl : Derives .sum ls l)
      (hop : op.isAdditive = true) (hr : Derives .product rs r) :
      Derives .sum (ls ++ .operator op :: rs) (.node l op r)

/-! ### Reading lexeme by lexeme -/

/-- What waits for its right side: a tree and an operator, or nothing. -/
abbrev Pending := Option (Tree × Operator)

/-- The tree with its right side. -/
def Pending.join : Pending → Tree → Tree
  | none, t => t
  | some (l, op), t => .node l op t

/-- What waits between two brackets: a sum for a product, and a product for an operand. -/
structure Frame where
  sum : Pending
  product : Pending

def Frame.join (frame : Frame) (t : Tree) : Tree := frame.sum.join (frame.product.join t)

def Frame.empty : Frame := ⟨none, none⟩

/-- What has been read: the frame of the innermost open bracket, the operand that was read last, if
none has to follow, and the frames around it, each with the table if the bracket opened an entry. -/
structure State where
  frame : Frame
  last : Option Tree
  outer : List (Frame × Option Tree)

namespace State

def start : State := ⟨.empty, none, []⟩

/-- Reads one more lexeme. -/
def step : State → Lexeme → Option State
  | ⟨frame, none, outer⟩, .name text =>
    if text ∈ reserved then none else some ⟨frame, some (.name text), outer⟩
  | ⟨frame, none, outer⟩, .number q => some ⟨frame, some (.number q), outer⟩
  | ⟨frame, none, outer⟩, .quoted text => some ⟨frame, some (.quoted text), outer⟩
  | ⟨frame, none, outer⟩, .opening => some ⟨.empty, none, (frame, none) :: outer⟩
  | ⟨frame, some t, outer⟩, .entryOpening => some ⟨.empty, none, (frame, some t) :: outer⟩
  | ⟨frame, some t, outer⟩, .operator op =>
    if op.isAdditive then some ⟨⟨some (frame.join t, op), none⟩, none, outer⟩
    else some ⟨⟨frame.sum, some (frame.product.join t, op)⟩, none, outer⟩
  | ⟨frame, some t, (frame', none) :: outer⟩, .closing => some ⟨frame', some (frame.join t), outer⟩
  | ⟨frame, some t, (frame', some table) :: outer⟩, .entryClosing =>
    some ⟨frame', some (.entry table (frame.join t)), outer⟩
  | _, _ => none

/-- Reads all of the lexemes. -/
def run (state : State) (ls : List Lexeme) : Option State := ls.foldlM step state

/-- The tree that has been read, if no bracket is open and no operand has to follow. -/
def tree? : State → Option Tree
  | ⟨frame, some t, []⟩ => some (frame.join t)
  | _ => none

theorem run_append (state : State) (ls rs : List Lexeme) :
    state.run (ls ++ rs) = (state.run ls).bind fun state => state.run rs := List.foldlM_append

theorem run_cons (state : State) (l : Lexeme) (ls : List Lexeme) :
    state.run (l :: ls) = (state.step l).bind fun state => state.run ls := List.foldlM_cons

end State

/-! ### The grammar is unambiguous -/

/-- Where lexemes lead to that make up an expression of a level: an operand takes the place of the
operand that has to follow, a product uses up the product that waits, and a sum the whole frame. -/
def Leads : Level → List Lexeme → Tree → Prop
  | .operand, ls, t => ∀ frame outer, State.run ⟨frame, none, outer⟩ ls = some ⟨frame, some t, outer⟩
  | .product, ls, t => ∀ sum outer, ∃ (product : Pending) (last : Tree), product.join last = t ∧
      State.run ⟨⟨sum, none⟩, none, outer⟩ ls = some ⟨⟨sum, product⟩, some last, outer⟩
  | .sum, ls, t => ∀ outer, ∃ (frame : Frame) (last : Tree), frame.join last = t ∧
      State.run ⟨.empty, none, outer⟩ ls = some ⟨frame, some last, outer⟩

/-- **What the grammar derives is read**, by induction on the derivation. -/
theorem Derives.leads {level : Level} {ls : List Lexeme} {t : Tree} (h : Derives level ls t) :
    Leads level ls t := by
  induction h with
  | name h =>
    intro frame outer
    rw [State.run_cons, State.step, if_neg h]
    rfl
  | number q => exact fun _ _ => rfl
  | quoted text => exact fun _ _ => rfl
  | group _ ih =>
    intro frame outer
    obtain ⟨inner, last, rfl, hrun⟩ := ih ((frame, none) :: outer)
    rw [State.run_append, State.run_cons, State.step, Option.bind_some, hrun]
    rfl
  | @entry ls ks table key _ _ ihtable ihkey =>
    intro frame outer
    obtain ⟨inner, last, rfl, hrun⟩ := ihkey ((frame, some table) :: outer)
    rw [State.run_append, State.run_append, ihtable, Option.bind_some, State.run_cons, State.step,
      Option.bind_some, hrun]
    rfl
  | @operand ls t _ ih => exact fun sum outer => ⟨none, t, rfl, ih ⟨sum, none⟩ outer⟩
  | @times ls rs l r op _ hop _ ihl ihr =>
    intro sum outer
    obtain ⟨product, last, rfl, hrun⟩ := ihl sum outer
    refine ⟨some (product.join last, op), r, rfl, ?_⟩
    rw [State.run_append, hrun, Option.bind_some, State.run_cons, State.step, hop, if_neg Bool.false_ne_true,
      Option.bind_some, ihr]
  | product _ ih =>
    intro outer
    obtain ⟨product, last, rfl, hrun⟩ := ih none outer
    exact ⟨⟨none, product⟩, last, rfl, hrun⟩
  | @plus ls rs l r op _ hop _ ihl ihr =>
    intro outer
    obtain ⟨frame, last, rfl, hrun⟩ := ihl outer
    obtain ⟨product, last', rfl, hrun'⟩ := ihr (some (frame.join last, op)) outer
    refine ⟨⟨some (frame.join last, op), product⟩, last', rfl, ?_⟩
    rw [State.run_append, hrun, Option.bind_some, State.run_cons, State.step, if_pos hop, Option.bind_some, hrun']

theorem Derives.tree?_eq {ls : List Lexeme} {t : Tree} (h : Derives .sum ls t) :
    (State.start.run ls).bind State.tree? = some t := by
  obtain ⟨frame, last, rfl, hrun⟩ := h.leads []
  rw [State.start, hrun]
  rfl

/-- **The grammar is unambiguous**: lexemes make up one expression at most. -/
theorem Derives.unique {ls : List Lexeme} {t t' : Tree} (h : Derives .sum ls t) (h' : Derives .sum ls t') :
    t = t' :=
  Option.some.inj (h.tree?_eq.symm.trans h'.tree?_eq)

end LinearRelations.Snippet
