/-
Fingerprints of source text.

An analysis is remembered with the fingerprint of the text it was made
from, and is used again only while the text still has that fingerprint.
Texts that differ only in carriage returns before line feeds have the same
fingerprint.
-/
import CallTrace.Digest.Sha256
import CallTrace.Text.Lines

namespace CallTrace.Source

/-- Sixteen hexadecimal digits of the digest of the text, its line ends
unified. -/
def fingerprint (content : String) : String :=
  let cs := Text.unifyPairs content.toList
  let bytes := (String.ofList cs).toUTF8.toList
  String.ofList ((Digest.sha256 bytes).take 16)

end CallTrace.Source
