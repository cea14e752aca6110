/-
  Printing along left spines.

  * `Regex.write` puts text out at the end of a buffer, as a printer does that must not recurse along the left spines
    that long texts give: it walks down a spine of alternatives and concatenations in a loop (`Regex.spine`), puts out
    the node at its end, and then what hangs off it on the right, each behind its separator;
  * `Regex.spine_text` is the invariant of the walk: the text at the end of the spine and behind it stays the same;
  * `Regex.toList_write_and_toList_writeStack`: whatever is in the buffer, the text of the tree follows it.  So the
    printer writes what the table of `Regex.render` says of the tree, whatever its shape (`Regex.print_exact`).
-/
import RegexNotation.Regex.Printer

namespace RegexNotation

/-! ## Pieces -/

/-- Puts out a character. -/
def Literal.write (out : String) : Literal → String
  | plain c => out.push c
  | escaped c | control c => (out.push '\\').push c
  | hex2 ds => out ++ "\\x" ++ ds
  | hex4 ds => out ++ "\\u" ++ ds
  | hexBraced ds => (out ++ "\\u\x7b" ++ ds).push '\x7d'

/-- Puts out an item of a set. -/
def SetItem.write (out : String) : SetItem → String
  | named letter => (out.push '\\').push letter
  | range a b => b.write ((a.write out).push '-')
  | single c => c.write out

/-- Puts out a set. -/
def writeSet (out : String) (negated : Bool) (items : List SetItem) : String :=
  let out := out.push '['
  let out := if negated then out.push '^' else out
  (items.foldl SetItem.write out).push ']'

/-- The suffix that is put out for a quantifier. -/
def Quantifier.suffix : Quantifier → String
  | star => "*"
  | plus => "+"
  | opt => "?"
  | exactly n => "\x7b" ++ toString n ++ "\x7d"
  | atLeast n => "\x7b" ++ toString n ++ ",\x7d"
  | between n m => "\x7b" ++ toString n ++ "," ++ toString m ++ "\x7d"

theorem Literal.toList_write (out : String) (c : Literal) : (c.write out).toList = out.toList ++ c.render := by
  cases c <;> simp [write, render]

theorem SetItem.toList_write (out : String) (i : SetItem) : (i.write out).toList = out.toList ++ i.render := by
  cases i <;> simp [write, render, Literal.toList_write]

theorem toList_foldl_write (out : String) (items : List SetItem) :
    (items.foldl SetItem.write out).toList = out.toList ++ items.flatMap SetItem.render := by
  induction items generalizing out with
  | nil => simp
  | cons i items ih => rw [List.foldl_cons, ih, SetItem.toList_write, List.flatMap_cons, List.append_assoc]

theorem toList_writeSet (out : String) (negated : Bool) (items : List SetItem) :
    (writeSet out negated items).toList = out.toList ++ Regex.renderSet negated items := by
  cases negated <;> simp [writeSet, Regex.renderSet, toList_foldl_write]

theorem toList_toString_bound (n : UInt32) : (toString n).toList = boundDigits n := by
  show (Nat.repr n.toNat).toList = boundDigits n
  rw [Nat.toList_repr]
  rfl

theorem Quantifier.toList_suffix (q : Quantifier) : q.suffix.toList = q.render := by
  cases q <;> simp [suffix, render, toList_toString_bound]

namespace Regex

/-! ## Spines -/

/-- The node at the end of a left spine, and in front of `stack` what hangs off the spine on the right, with the
    separator that comes before it. -/
def spine : Regex → List (String × Regex) → Regex × List (String × Regex)
  | alt l r, stack => l.spine (("|", r) :: stack)
  | cat l r, stack => l.spine (("", r) :: stack)
  | e, stack => (e, stack)

/-- The text of what hangs off a spine. -/
def stackText (stack : List (String × Regex)) : List Char :=
  stack.flatMap fun p => p.1.toList ++ p.2.render

@[simp] theorem stackText_cons (separator : String) (e : Regex) (stack : List (String × Regex)) :
    stackText ((separator, e) :: stack) = separator.toList ++ (e.render ++ stackText stack) := by
  rw [stackText, List.flatMap_cons, List.append_assoc]
  rfl

theorem spine_text (e : Regex) (stack : List (String × Regex)) :
    (e.spine stack).1.render ++ stackText (e.spine stack).2 = e.render ++ stackText stack := by
  fun_induction spine e stack with
  | case1 l r stack ih => simp [ih, render]
  | case2 l r stack ih => simp [ih, render]
  | case3 => rfl

/-- The number of nodes of an expression. -/
def nodes : Regex → Nat
  | alt l r | cat l r => l.nodes + r.nodes + 1
  | quantified e _ | group _ e => e.nodes + 1
  | _ => 1

theorem nodes_pos (e : Regex) : 0 < e.nodes := by
  cases e <;> simp [nodes]

/-- The number of nodes of what hangs off a spine. -/
def stackNodes (stack : List (String × Regex)) : Nat := stack.foldr (fun p n => p.2.nodes + n) 0

@[simp] theorem stackNodes_cons (separator : String) (e : Regex) (stack : List (String × Regex)) :
    stackNodes ((separator, e) :: stack) = e.nodes + stackNodes stack := rfl

/-- Of a spine, the binary nodes are left out. -/
theorem spine_nodes_le (e : Regex) (stack : List (String × Regex)) :
    (e.spine stack).1.nodes + stackNodes (e.spine stack).2 ≤ e.nodes + stackNodes stack := by
  fun_induction spine e stack with
  | case1 l r stack ih =>
    simp only [stackNodes_cons, nodes] at ih ⊢
    omega
  | case2 l r stack ih =>
    simp only [stackNodes_cons, nodes] at ih ⊢
    omega
  | case3 => exact Nat.le_refl _

theorem spine_alt_nodes_lt (l r : Regex) :
    ((alt l r).spine []).1.nodes + stackNodes ((alt l r).spine []).2 < (alt l r).nodes := by
  have h := l.spine_nodes_le [("|", r)]
  simp only [stackNodes_cons] at h
  simp only [spine, nodes]
  exact Nat.lt_succ_of_le h

theorem spine_cat_nodes_lt (l r : Regex) :
    ((cat l r).spine []).1.nodes + stackNodes ((cat l r).spine []).2 < (cat l r).nodes := by
  have h := l.spine_nodes_le [("", r)]
  simp only [stackNodes_cons] at h
  simp only [spine, nodes]
  exact Nat.lt_succ_of_le h

/-! ## The printer -/

mutual
/-- Puts out an expression. -/
def write (out : String) : Regex → String
  | any => out.push '.'
  | empty => out ++ "$e"
  | blank => out
  | never => out ++ "$0"
  | set negated items => writeSet out negated items
  | named letter => (out.push '\\').push letter
  | literal c => c.write out
  | alt l r => writeStack (write out ((alt l r).spine []).1) ((alt l r).spine []).2
  | cat l r => writeStack (write out ((cat l r).spine []).1) ((cat l r).spine []).2
  | quantified e q => write out e ++ q.suffix
  | group kind e => (write (out ++ String.ofList kind.opening) e).push ')'
termination_by e => 2 * e.nodes
decreasing_by
  · have := spine_alt_nodes_lt l r
    omega
  · have := spine_alt_nodes_lt l r
    omega
  · have := spine_cat_nodes_lt l r
    omega
  · have := spine_cat_nodes_lt l r
    omega
  · rw [nodes]
    omega
  · rw [nodes]
    omega

/-- Puts out what hangs off a spine. -/
def writeStack (out : String) : List (String × Regex) → String
  | [] => out
  | (separator, e) :: stack => writeStack (write (out ++ separator) e) stack
termination_by stack => 2 * stackNodes stack + 1
decreasing_by
  · rw [stackNodes_cons]
    omega
  · have := e.nodes_pos
    rw [stackNodes_cons]
    omega
end

/-- What is put out comes behind what is in the buffer, and it is the text of the tree, or of what hangs off the spine. -/
theorem toList_write_and_toList_writeStack :
    (∀ out e, (write out e).toList = out.toList ++ e.render) ∧
      ∀ out stack, (writeStack out stack).toList = out.toList ++ stackText stack := by
  apply write.mutual_induct
  case case5 =>
    intro out negated items
    rw [write, toList_writeSet, render]
  case case7 =>
    intro out c
    rw [write, Literal.toList_write, render]
  case case8 =>
    intro out l r ihnode ihstack
    -- the walk leaves the text of the whole tree in the node and on the stack
    have hwalk := spine_text (alt l r) []
    rw [write, ihstack, ihnode, List.append_assoc, hwalk]
    simp [stackText]
  case case9 =>
    intro out l r ihnode ihstack
    have hwalk := spine_text (cat l r) []
    rw [write, ihstack, ihnode, List.append_assoc, hwalk]
    simp [stackText]
  case case10 =>
    intro out e q ih
    simp [write, render, ih, Quantifier.toList_suffix]
  case case11 =>
    intro out kind e ih
    simp [write, render, ih]
  case case12 =>
    intro out
    simp [writeStack, stackText]
  case case13 =>
    intro out separator e stack ihnode ihstack
    simp [writeStack, ihstack, ihnode]
  all_goals
    intros
    simp [write, render]

/-- **The printer writes the recursive table.**  For every tree, however its alternatives and concatenations are nested
    and mixed, the printer that walks left spines in a loop puts out the text that the table of `render` gives, and so
    does `print`. -/
theorem print_exact (e : Regex) : write "" e = e.print ∧ e.print.toList = e.render := by
  refine ⟨String.toList_inj.1 ?_, e.toList_print⟩
  rw [toList_write_and_toList_writeStack.1, toList_print]
  rfl

end Regex

end RegexNotation
