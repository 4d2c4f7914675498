import TreeQuery.Expr.Basic
/-!
# Sameness of expressions

Two expressions are the same if their forms are, static types and places left aside. Constants are
compared by value, so a literal of what is not a number is not even the same as itself.
-/

namespace TreeQuery

def sameValues : List Atomic → List Atomic → Bool
  | [], [] => true
  | v :: vs, w :: ws => v.same w && sameValues vs ws
  | _, _ => false

mutual

def Expr.same : Expr → Expr → Bool
  | ⟨f, _, _⟩, ⟨g, _, _⟩ => f.same g
termination_by structural e => e

def Form.same : Form → Form → Bool
  | .literal vs, .literal ws => sameValues vs ws
  | .function f, .function g => f.same g
  | .contextItem, .contextItem => true
  | .position v, .position w => v == w
  | .conjunction es, .conjunction fs => sameExprs es fs
  | .disjunction es, .disjunction fs => sameExprs es fs
  | .comparison s o a b, .comparison t p c d => s == t && o == p && a.same c && b.same d
  | .call f es, .call g fs => f == g && sameExprs es fs
  | .step a t ps, .step b u qs => a == b && t == u && sameExprs ps qs
  | .path r es, .path s fs => r.same s && sameExprs es fs
  | .relativePath es, .relativePath fs => sameExprs es fs
  | .map es, .map fs => sameExprs es fs
  | .filter r ps, .filter s qs => r.same s && sameExprs ps qs
  | .containsText a b, .containsText c d => a.same c && b.same d
  | .conditional a b c, .conditional d e f => a.same d && b.same e && c.same f
  | .reference v, .reference w => v == w
  | .apply f es, .apply g fs => f.same g && sameExprs es fs
  | .check e t p, .check f u q => e.same f && t == u && p == q
  | .failure e, .failure f => e.same f
  | _, _ => false
termination_by structural form => form

def FunctionItem.same : FunctionItem → FunctionItem → Bool
  | .inline n s ps b, .inline m t qs c => n == m && s == t && ps == qs && b.same c
  | .coerced n s f, .coerced m t g => n == m && s == t && f.same g
  | _, _ => false
termination_by structural f => f

def sameExprs : List Expr → List Expr → Bool
  | [], [] => true
  | e :: es, f :: fs => e.same f && sameExprs es fs
  | _, _ => false
termination_by structural es => es

end

end TreeQuery
