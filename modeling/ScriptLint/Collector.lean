import ScriptLint.ScriptBlock

/-!
Scanning in one pass: every script element is handed to a collector as soon as it is met, and the collector cuts its
text out of the document. A cut inside a character breaks the scan off, whatever would have followed.
-/
namespace ScriptLint
set_option autoImplicit false

def Html.collectFrom {σ : Type} (take : σ → Element → σ) (offset : Nat) (collected : σ) : Bytes → σ
  | [] => collected
  | b :: rest =>
    if b = Byte.less then
      match constructAt rest with
      | .plain length => collectFrom take (offset + 1 + length) collected (rest.drop length)
      | .script attributes tagLength contentLength length =>
        collectFrom take (offset + 1 + length)
          (take collected
            ⟨offset, ⟨offset + 1 + tagLength, offset + 1 + tagLength + contentLength⟩, attributes, []⟩)
          (rest.drop length)
    else collectFrom take (offset + 1) collected rest
termination_by s => s.length
decreasing_by
  all_goals simp only [List.length_drop, List.length_cons]; omega

/-- What has been collected stays, also where the scan fails. -/
def Xml.collectFrom {σ : Type} (take : σ → Element → σ) (text : Bytes) (offset : Nat) (state : State) (collected : σ)
    (rest : Bytes) : σ × Except ScanError Unit :=
  if startsStray (text.drop offset) then (collected, .error (.unexpectedToken [Byte.less] offset))
  else
    match rest with
    | [] =>
      match state.script with
      | some script => (collected, .error (.unclosedElement scriptName script.tagStart))
      | none => (collected, .ok ())
    | b :: after =>
      if b = Byte.less then
        match markupAt after with
        | .error failure => (collected, .error (failure.toScanError offset))
        | .ok (markup, content) =>
          match step offset (offset + content.length + 2) markup state with
          | .error error => (collected, .error error)
          | .ok (next, found) =>
            collectFrom take text (offset + content.length + 2) next (found.toList.foldl take collected)
              (after.drop (content.length + 1))
      else
        let length := (after.takeWhile (· != Byte.less)).length
        collectFrom take text (offset + 1 + length) state collected (after.drop length)
termination_by rest.length
decreasing_by
  all_goals simp only [List.length_drop, List.length_cons]; omega

/-- The blocks with one more, if the element holds a script. Once a cut has failed there are none. -/
def ScriptBlock.collect (document : Document) (options : ScanOptions) (collected : Option (List ScriptBlock))
    (element : Element) : Option (List ScriptBlock) :=
  if Attribute.denoteScript options.mode options.mediaTypes element.attributes then
    collected.bind fun blocks =>
      (scriptText? document.text element).map fun text =>
        blocks ++ [{ ofElement document options.mode blocks.length element with text }]
  else collected

/-- What a scan returns, unless it breaks off. -/
def Document.collect (document : Document) (options : ScanOptions) : Option (Except ScanError (List ScriptBlock)) :=
  let take := ScriptBlock.collect document options
  match options.mode with
  | .html => (Html.collectFrom take 0 (some []) document.text).map .ok
  | .xml =>
    let read := if Xml.byteOrderMark.isPrefixOf document.text then document.text.drop 3 else document.text
    let (collected, result) := Xml.collectFrom take document.text 0 ⟨0, none⟩ (some []) read
    collected.map fun blocks => result.map fun _ => blocks

end ScriptLint
