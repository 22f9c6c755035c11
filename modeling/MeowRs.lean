import MeowRs.AnyTlsPadding
import MeowRs.ChainHealth
import MeowRs.CidrCoverage
import MeowRs.ColdReload
import MeowRs.ContextHash
import MeowRs.DialFailures
import MeowRs.DnsTiers
import MeowRs.DomainKeys
import MeowRs.DomainSetEncoding
import MeowRs.FakeIpPersistence
import MeowRs.FecRuns
import MeowRs.GlobMatcher
import MeowRs.GroupOrder
import MeowRs.HttpSingleRequest
import MeowRs.HttpTargets
import MeowRs.KcpWindows
import MeowRs.LedgerRuns
import MeowRs.LocalDays
import MeowRs.MuxCoolFrames
import MeowRs.MuxDatagrams
import MeowRs.MuxPadding
import MeowRs.MuxRuns
import MeowRs.PortRules
import MeowRs.ProtobufWire
import MeowRs.ProviderViews
import MeowRs.RangePrefixes
import MeowRs.RelayFronts
import MeowRs.ReplayWindow
import MeowRs.RestlsWrites
import MeowRs.RuleDeadness
import MeowRs.RuleRefresh
import MeowRs.RuleTrees
import MeowRs.ShadowTlsReads
import MeowRs.SmuxReceive
import MeowRs.TrieSealing
import MeowRs.UdpFlush
import MeowRs.UrlTest
import MeowRs.VisionDownlink
