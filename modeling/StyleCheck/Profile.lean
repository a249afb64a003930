import StyleCheck.Audit
import StyleCheck.Text.Utf8

/-!
# Profiles

Which checks an audit starts with. The empty profile has none; the library profile is the house
style of a sequence analysis library, with the header that each of its files carries.
-/

namespace StyleCheck

/-- The checks and rules of an audit. -/
structure Profile where
  trees : List TreeCheck
  texts : List TextRule

namespace Profile

def empty : Profile := ⟨[], []⟩

def audit (p : Profile) : Audit := .new p.trees p.texts

/-- The patterns of the header, line by line. -/
def headerPatterns : List String :=
  ["^// =\x7b74\x7d$",
   "^//                 SeqAn - The Library for Sequence Analysis$",
   "^// =\x7b74\x7d$",
   "^// Copyright \\(c\\) 2006-201., Knut Reinert, FU Berlin$",
   "^// All rights reserved\\.$",
   "^//$",
   "^// Redistribution and use in source and binary forms, with or without$",
   "^// modification, are permitted provided that the following conditions are met:$",
   "^//$",
   "^//     \\* Redistributions of source code must retain the above copyright$",
   "^//       notice, this list of conditions and the following disclaimer\\.$",
   "^//     \\* Redistributions in binary form must reproduce the above copyright$",
   "^//       notice, this list of conditions and the following disclaimer in the$",
   "^//       documentation and/or other materials provided with the distribution\\.$",
   "^//     \\* Neither the name of Knut Reinert or the FU Berlin nor the names of$",
   "^//       its contributors may be used to endorse or promote products derived$",
   "^//       from this software without specific prior written permission\\.$",
   "^//$",
   "^// THIS SOFTWARE IS PROVIDED BY THE COPYRIGHT HOLDERS AND CONTRIBUTORS \"AS IS\"$",
   "^// AND ANY EXPRESS OR IMPLIED WARRANTIES, INCLUDING, BUT NOT LIMITED TO, THE$",
   "^// IMPLIED WARRANTIES OF MERCHANTABILITY AND FITNESS FOR A PARTICULAR PURPOSE$",
   "^// ARE DISCLAIMED\\. IN NO EVENT SHALL KNUT REINERT OR THE FU BERLIN BE LIABLE$",
   "^// FOR ANY DIRECT, INDIRECT, INCIDENTAL, SPECIAL, EXEMPLARY, OR CONSEQUENTIAL$",
   "^// DAMAGES \\(INCLUDING, BUT NOT LIMITED TO, PROCUREMENT OF SUBSTITUTE GOODS OR$",
   "^// SERVICES; LOSS OF USE, DATA, OR PROFITS; OR BUSINESS INTERRUPTION\\) HOWEVER$",
   "^// CAUSED AND ON ANY THEORY OF LIABILITY, WHETHER IN CONTRACT, STRICT$",
   "^// LIABILITY, OR TORT \\(INCLUDING NEGLIGENCE OR OTHERWISE\\) ARISING IN ANY WAY$",
   "^// OUT OF THE USE OF THIS SOFTWARE, EVEN IF ADVISED OF THE POSSIBILITY OF SUCH$",
   "^// DAMAGE\\.$",
   "^//$",
   "^// =\x7b74\x7d$"]

/-- Braces stand on lines of their own, those of namespaces excepted. -/
def bracesBelow : List (String × Setting) :=
  [("brace_positions_class_struct_declaration", .text "next-line"),
   ("brace_positions_function_declaration", .text "next-line"),
   ("brace_positions_blocks", .text "next-line"),
   ("brace_positions_blocks_in_case_statement", .text "next-line"),
   ("brace_positions_switch_statement", .text "next-line"),
   ("brace_positions_namespace_declaration", .text "same-line")]

/-- The house style. -/
def library : Except Fault Profile := do
  let settings ← Settings.defaults.setAll bracesBelow
  let header ← TextRule.patternHeader (headerPatterns.map Text.ofString)
  return {
    trees := [.indent (.ofStyle (.ofSettings settings)), .spacing .new]
    texts :=
      [header, .endsIn [[Text.newline]], .noTrailingBlanks, .unixEndings, .todoForm] }

end Profile

end StyleCheck
