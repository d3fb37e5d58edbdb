import MiniML.Ty.Text
/-!
# Type schemes

A scheme `forall vars. body` stands for every type that its body becomes
when the quantified variables are replaced. It reads as its body; the
quantified variables are not written.
-/
namespace MiniML

/-- A type with quantified variables. -/
structure Scheme where
  vars : List TyVar
  body : Ty
deriving DecidableEq, Repr, Inhabited

namespace Scheme

/-- The scheme without quantified variables. -/
def mono (t : Ty) : Scheme := ⟨[], t⟩

/-- Whether nothing is quantified. -/
def isMono (s : Scheme) : Bool := s.vars.isEmpty

/-- The variables of the body that are not quantified, in ascending order. -/
def free (s : Scheme) : List TyVar := s.body.free.filter (!s.vars.contains ·)

/-- Every variable that a scheme mentions, quantified or not. -/
def mentioned (s : Scheme) : List TyVar := s.vars ++ s.body.leaves

/-- The text of a scheme. -/
def text (s : Scheme) : String := s.body.normalized

end Scheme
end MiniML
