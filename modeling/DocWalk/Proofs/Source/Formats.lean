import DocWalk.Proofs.Json.Failures
import DocWalk.Proofs.Xml.Failures

/-!
# Both formats as sources

What holds of any source with a queue, and what each format owes to it, put together: the contract of
a source, that looking ahead does not show, and what may come behind an error.
-/

set_option autoImplicit false

namespace DocWalk.Source

open Json (Tokenizer)
open Xml (Document)

/-- **Both formats keep the contract of a source**, on every text and all bytes, up to the first
error. -/
theorem formats_keep_contract :
    (∀ text, Contract Tokenizer.position (Tokenizer.ofText text)) ∧
      ∀ bytes, Contract Document.position (Document.ofBytes bytes) :=
  ⟨Tokenizer.contract, Document.contract⟩

/-- **Where a caller looks does not show**, in either format and from any state. -/
theorem formats_transparent :
    (∀ t : Tokenizer, Transparent t) ∧ ∀ d : Document, Transparent d :=
  ⟨LawfulPeek.transparent, LawfulPeek.transparent⟩

/-- **What may come behind errors**, in either format and whatever a caller asks on. In JSON a fault in
front of a token is fatal but for the element of an array, whose node is still given; no other event of
what failed is, and no end inside a container. In XML no error is fatal: the document goes on, and ends
when each element that it still has open was told. -/
theorem formats_behind_errors (text : String) (bytes : List UInt8) :
    Json.Aftermath text ∧ Xml.Aftermath bytes :=
  ⟨Tokenizer.aftermath text, Document.aftermath bytes⟩

/-- An error is not the last that is heard of a document. In an array the node of an element is given
behind the error that its value was refused with, and a document with an element open has an end behind
the error that tells of it. -/
theorem formats_go_on_behind_errors :
    (answers [.next, .next, .next] (Tokenizer.ofText "[x]")).map Prod.snd =
        [.ok (some .startDocument), .error (.json ⟨.unexpectedCharacter, 1⟩),
          .ok (some (.startNode { name := "member" }))] ∧
      (answers [.next, .next, .next, .next] (Document.ofText "<a>")).map Prod.snd =
        [.ok (some .startDocument), .ok (some (.startNode { name := "a" })),
          .error (.xml (.illFormed (.missingEndTag "a"))), .ok (some .endDocument)] := by
  constructor
  · decide +kernel
  · decide +kernel

end DocWalk.Source
