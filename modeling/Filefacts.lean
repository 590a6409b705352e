import Filefacts.Apk.Bound
import Filefacts.Cache.Reclaim
import Filefacts.Cache.Running
import Filefacts.Cache.Shared
import Filefacts.Cfml.Chains
import Filefacts.Cms.Chain
import Filefacts.Cms.Passes
import Filefacts.Constraint.Decides
import Filefacts.Cpio.Listing
import Filefacts.Crx.Manifest
import Filefacts.Elf.InitArray
import Filefacts.GoDependency.Order
import Filefacts.GoDependency.Settled
import Filefacts.GoPackage.Coverage
import Filefacts.Html.Bodies
import Filefacts.Iso.Reassembly
import Filefacts.Iso.Tree
import Filefacts.MachO.Bind
import Filefacts.MachO.Decoy
import Filefacts.Marshal.Refines
import Filefacts.Output.Budget
import Filefacts.Output.CompleteValues
import Filefacts.Output.Origins
import Filefacts.Pdf.FilterChain
import Filefacts.Pdf.LiteralRead
import Filefacts.Pdf.Searched
import Filefacts.Pdf.Spelled
import Filefacts.Pe.FileRanges
import Filefacts.Pe.ImageHash
import Filefacts.Pe.Pushes
import Filefacts.Pe.ResolverCalls
import Filefacts.Pe.VersionRead
import Filefacts.Pickle.Modelled
import Filefacts.Plist.Exact
import Filefacts.Png.Idat
import Filefacts.Pyarmor.PythonBytes
import Filefacts.Rar.Stepped5
import Filefacts.Rar.Units
import Filefacts.Rpa.Payload
import Filefacts.Rtf.Objdata
import Filefacts.Scpt.ArenaRun
import Filefacts.Scpt.Isomorphic
import Filefacts.Scpt.Sound
import Filefacts.Source.Agreed
import Filefacts.Source.LuaAgreed
import Filefacts.Source.ModuleSound
import Filefacts.Source.PythonComments
import Filefacts.Source.Scope
import Filefacts.Structured.Identity
import Filefacts.Systemd.Joined
import Filefacts.Systemd.Shell
import Filefacts.Time.Inverse
import Filefacts.Vba.RoundTrip
import Filefacts.Wasm.Reader
import Filefacts.Zip.Directory
