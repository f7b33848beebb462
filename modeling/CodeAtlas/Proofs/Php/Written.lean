import CodeAtlas.Php.Grammar
import CodeAtlas.Proofs.Grammar.Lexeme

/-!
# Statements that are written out

What the lexer makes of source that is given, piece by piece: the tag at the start of a file, an
equals sign between two blanks, and the end of a statement.
-/

namespace CodeAtlas.Php

open Grammar Source List

variable {pre s : Source}

/-- Characters as source. -/
def glyphs (s : List Char) : Source :=
  s.map .char

/-- The lexemes of code from the place behind `pre` on. -/
def codeBehind (pre s : Source) : List (Lexeme Kind Token) :=
  lexemesBehind (nextCut .pause .comment) [.code] pre s

/-- A lexeme that leaves the code as it is. -/
theorem codeBehind_cons {post : Source} {form : Form Kind Token} {fold : Bool} (hs : s ≠ [])
    (hcut : nextCut .pause .comment [.code] (s ++ post) = ⟨some form, s.length, [.code], fold⟩)
    (pre : Source) :
    codeBehind pre (s ++ post) =
      ⟨form, if fold then foldCase (text s) else text s, extentBehind pre s⟩ ::
        codeBehind (pre ++ s) post :=
  lexemesBehind_append hs hcut pre

theorem codeBehind_blank (hs : headIs isSpace s = false) {c : Char} (hc : isSpace c) :
    codeBehind pre (glyphs [c] ++ s) = codeBehind (pre ++ glyphs [c]) s := by
  have hglyph : ∀ g ∈ glyphs [c], g.satisfies isSpace := by
    simpa [glyphs, Glyph.satisfies] using hc
  have hcut : nextCut Kind.pause .comment [.code] (glyphs [c] ++ s) =
      ⟨none, 1, [.code], false⟩ := by
    have hrun := countWhile_append hglyph hs
    simp only [nextCut, glyphs, map_cons, map_nil, singleton_append] at hrun ⊢
    rw [cutCode]
    simp only [Glyph.satisfies, hc, hrun]
    rfl
  exact lexemesBehind_append (cons_ne_nil _ _) hcut pre

/-- The tag at the start of a file. -/
theorem lexemes_tag (hs : headIs isSpace s = false) :
    ∃ e, lexemes .pause .comment (glyphs "<?php\n".toList ++ s) =
      ⟨.solid .tag, "<?php", e⟩ :: codeBehind (glyphs "<?php\n".toList) s := by
  have htag : lexemesBehind (nextCut Kind.pause .comment) [.html] []
      (glyphs "<?php".toList ++ (glyphs ['\n'] ++ s)) = _ :=
    lexemesBehind_append (cons_ne_nil _ _) rfl _
  exact ⟨_, (lexemes_eq_lexemesBehind rfl _).trans
    (htag.trans (congrArg _ (codeBehind_blank hs rfl)))⟩

theorem codeBehind_equals (pre : Source) (hs : headIs isSpace s = false) :
    ∃ e, codeBehind pre (glyphs " = ".toList ++ s) =
      ⟨.solid .sign, "=", e⟩ :: codeBehind (pre ++ glyphs " = ".toList) s := by
  have hblank : codeBehind pre (glyphs [' '] ++ (glyphs ['='] ++ (glyphs [' '] ++ s))) = _ :=
    codeBehind_blank rfl rfl
  have hsign : codeBehind (pre ++ glyphs [' ']) (glyphs ['='] ++ (glyphs [' '] ++ s)) = _ :=
    codeBehind_cons (cons_ne_nil _ _) rfl _
  refine ⟨_, hblank.trans (hsign.trans (congrArg _ ((codeBehind_blank hs rfl).trans ?_)))⟩
  rw [append_assoc, append_assoc]
  rfl

theorem codeBehind_end (pre : Source) :
    ∃ e, codeBehind pre (glyphs ";\n".toList) = [⟨.solid .sign, ";", e⟩] := by
  have hsign : codeBehind pre (glyphs [';'] ++ (glyphs ['\n'] ++ [])) = _ :=
    codeBehind_cons (cons_ne_nil _ _) rfl _
  exact ⟨_, hsign.trans (congrArg _ (codeBehind_blank rfl rfl))⟩

end CodeAtlas.Php
