import GnuPoc.Sis.Bounds
import GnuPoc.Sis.Canonical
import GnuPoc.Sis.Checksums
import GnuPoc.E32.Body
import GnuPoc.Mif.Extract
import GnuPoc.Crtsis.HostOrder
import GnuPoc.E32.RelocationTypes
import GnuPoc.Elf.DsoHash
import GnuPoc.Deflate.MetaBounds
import GnuPoc.E32.TranRelocated
import GnuPoc.E32.RelocationSafety
import GnuPoc.Mif.CaseInsensitive
import GnuPoc.Pkg.DoesExist
import GnuPoc.Sis.Expression
import GnuPoc.Pkg.StringRuns
import GnuPoc.Sis.CompressedRuns
import GnuPoc.Sis.HeaderNumbers
import GnuPoc.Sis.PeCapabilities
import GnuPoc.Bmconv.ExpandSafety
import GnuPoc.Bmconv.CompressSafety
import GnuPoc.Bmconv.CommandFile
import GnuPoc.Bmconv.BitmapLoader
import GnuPoc.Rcomp.SRLink
import GnuPoc.Sis.AcceptedPackage
import GnuPoc.Rcomp.ResourceLayout
import GnuPoc.Sis.NestedIndex
import GnuPoc.UidChecksums
import GnuPoc.Genaif.AifLayout
import GnuPoc.Rcomp.ReportedLine
import GnuPoc.Petran.ExportSplit
import GnuPoc.Petran.SectionAccess
import GnuPoc.Rcomp.NaturalExpression
import GnuPoc.Rcomp.WriteChecks
import GnuPoc.Crtsis.SpaceNeeded
import GnuPoc.Pkg.VariableLookup
import GnuPoc.Crtsis.TextEncoding
import GnuPoc.Svg.StyleElement
import GnuPoc.Deflate.DeflateRoundTrip
import GnuPoc.Elf.Ordinals
import GnuPoc.E32.Soundness
