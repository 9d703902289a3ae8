import WriteOnce.Syntax.Source
import WriteOnce.Syntax.Tree

/-!
# Fragments of a source

A fragment is a whole program, one member of a class, or a block without a class.
-/

namespace WriteOnce

inductive Fragment
  | program (program : Program)
  | member (member : Member)
  | block (block : Block)

namespace Fragment

def tree : Fragment → Tree
  | program p => p.tree
  | member m => m.tree
  | block b => b.tree

def className : Fragment → Text
  | program _ => "JModule"
  | member m => m.className
  | block _ => "JBlock"

end Fragment

namespace Member

/-- The member behind a path of places in lists of members. -/
def descend? : Member → List Nat → Option Member
  | m, [] => some m
  | classDecl decl, i :: path => (decl.members[i]?).bind (descend? · path)
  | _, _ :: _ => none

end Member

/-- The member behind a path that begins with the place of a class. -/
def Program.memberAt? (p : Program) : List Nat → Option Member
  | [] => none
  | i :: path => (p.classes[i]?).bind fun decl => (Member.classDecl decl).descend? path

end WriteOnce
