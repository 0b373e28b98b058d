/-
# Gate matrices

The 2x2 matrices of `gates.hpp`, row-major as `std::array<Complex, 4>`, with
doubles read as reals, `M_PI` as π and `std::cos`, `std::sin`, `std::sqrt` as
the real functions.
-/
import Mathlib

namespace Qsycl

/-- A 2x2 matrix, row-major: `m00, m01, m10, m11`. -/
abbrev Matrix2x2 (α : Type) := Fin 4 → α

namespace Matrix2x2

variable {α : Type} (m : Matrix2x2 α)

def m00 : α := m 0
def m01 : α := m 1
def m10 : α := m 2
def m11 : α := m 3

/-- The entry in row `r` and column `c`. -/
def entry : Bool → Bool → α
  | false, false => m.m00
  | false, true => m.m01
  | true, false => m.m10
  | true, true => m.m11

end Matrix2x2

namespace Gates

noncomputable section

open Real

/-- The half angle `theta / 2` of a rotation. -/
def half (theta : ℝ) : ℝ := theta / 2

def H : Matrix2x2 ℂ :=
  let s := 1 / √2
  ![⟨s, 0⟩, ⟨s, 0⟩, ⟨s, 0⟩, ⟨-s, 0⟩]

def X : Matrix2x2 ℂ := ![⟨0, 0⟩, ⟨1, 0⟩, ⟨1, 0⟩, ⟨0, 0⟩]
def Y : Matrix2x2 ℂ := ![⟨0, 0⟩, ⟨0, -1⟩, ⟨0, 1⟩, ⟨0, 0⟩]
def Z : Matrix2x2 ℂ := ![⟨1, 0⟩, ⟨0, 0⟩, ⟨0, 0⟩, ⟨-1, 0⟩]
def S : Matrix2x2 ℂ := ![⟨1, 0⟩, ⟨0, 0⟩, ⟨0, 0⟩, ⟨0, 1⟩]
def Sdg : Matrix2x2 ℂ := ![⟨1, 0⟩, ⟨0, 0⟩, ⟨0, 0⟩, ⟨0, -1⟩]
def T : Matrix2x2 ℂ := ![⟨1, 0⟩, ⟨0, 0⟩, ⟨0, 0⟩, ⟨cos (π / 4), sin (π / 4)⟩]
def Tdg : Matrix2x2 ℂ := ![⟨1, 0⟩, ⟨0, 0⟩, ⟨0, 0⟩, ⟨cos (-π / 4), sin (-π / 4)⟩]

def U (theta phi lambda : ℝ) : Matrix2x2 ℂ :=
  let c := cos (half theta)
  let s := sin (half theta)
  let ephi : ℂ := ⟨cos phi, sin phi⟩
  let elambda : ℂ := ⟨cos lambda, sin lambda⟩
  let esum : ℂ := ⟨cos (phi + lambda), sin (phi + lambda)⟩
  ![⟨c, 0⟩, ⟨-s, 0⟩ * elambda, ⟨s, 0⟩ * ephi, ⟨c, 0⟩ * esum]

def RX (theta : ℝ) : Matrix2x2 ℂ :=
  let c := cos (half theta)
  let s := sin (half theta)
  ![⟨c, 0⟩, ⟨0, -s⟩, ⟨0, -s⟩, ⟨c, 0⟩]

def RY (theta : ℝ) : Matrix2x2 ℂ :=
  let c := cos (half theta)
  let s := sin (half theta)
  ![⟨c, 0⟩, ⟨-s, 0⟩, ⟨s, 0⟩, ⟨c, 0⟩]

def RZ (theta : ℝ) : Matrix2x2 ℂ :=
  let c := cos (half theta)
  let s := sin (half theta)
  ![⟨c, -s⟩, ⟨0, 0⟩, ⟨0, 0⟩, ⟨c, s⟩]

end

end Gates

end Qsycl
